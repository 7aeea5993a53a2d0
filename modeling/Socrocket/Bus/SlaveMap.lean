/- Socrocket/Bus/SlaveMap
   digest: The address map of a bus controller, its one entry cache and the search for a slave. -/

import Socrocket.Base.OrderedMap

set_option autoImplicit false
set_option relaxedAutoImplicit false

namespace Socrocket.Bus

open Socrocket.Base

/-- What the decoder keeps for a memory area: the bus index of the slave, the address mask, and the
number of the binding. -/
structure SlaveInfo where
  index : BitVec 32
  mask : BitVec 32
  binding : BitVec 32
deriving DecidableEq

/-- A base address and the area there. -/
abbrev Entry := BitVec 32 × SlaveInfo

abbrev SlaveMap := OrderedMap (BitVec 32) SlaveInfo (Compare.word 32)

/-- The initial content of the cache, which no segment address matches. -/
def bogus : Entry := (~~~0, ⟨0, ~~~0, ~~~0⟩)

/-- A segment address belongs to an area. -/
def Covers (e : Entry) (addr : BitVec 32) : Prop := (addr ^^^ e.1) &&& e.2.mask = 0

instance (e : Entry) (addr : BitVec 32) : Decidable (Covers e addr) :=
  inferInstanceAs (Decidable (_ = _))

/-- Search the cache, then the entry before the first base above the address. There is no result
when that entry would be before the first one; otherwise the found entry, if any, and the cache. -/
def lookup (slaveMap : SlaveMap) (cache : Entry) (addr : BitVec 32) : Option (Option Entry × Entry) :=
  if Covers cache addr then some (some cache, cache)
  else (slaveMap.floor addr).map fun it => if Covers it addr then (some it, it) else (none, cache)

/-- The arguments of one call of `setAddressMap`. -/
structure Bar where
  binding : BitVec 32
  index : BitVec 32
  base : BitVec 32
  mask : BitVec 32
deriving DecidableEq

def Bar.info (b : Bar) : SlaveInfo := ⟨b.index, b.mask, b.binding⟩

def Bar.entry (b : Bar) : Entry := (b.base, b.info)

/-- The decoded areas are pairwise disjoint. -/
def Apart (bars : List Bar) : Prop :=
  bars.Pairwise fun b c => ∀ addr, ¬ (Covers b.entry addr ∧ Covers c.entry addr)

/-- The map after all calls. -/
def addressMap (bars : List Bar) : SlaveMap :=
  bars.foldl (fun m b => m.insert b.base b.info) OrderedMap.empty

variable {bars : List Bar}

theorem Bar.covers_base (b : Bar) : Covers b.entry b.base := by
  change (b.base ^^^ b.base) &&& b.mask = 0
  rw [BitVec.xor_self, BitVec.zero_and]
  rfl

theorem Apart.unique (apart : Apart bars) {b c : Bar} (hb : b ∈ bars) (hc : c ∈ bars)
    {addr : BitVec 32} (covb : Covers b.entry addr) (covc : Covers c.entry addr) : b = c := by
  by_contra ne
  have symm : Std.Symm fun b c : Bar => ∀ addr, ¬ (Covers b.entry addr ∧ Covers c.entry addr) :=
    ⟨fun x y h addr both => h addr both.symm⟩
  exact apart.forall hb hc ne addr ⟨covb, covc⟩

private theorem mem_foldl_insert (bars : List Bar) (m : SlaveMap) (apart : Apart bars)
    (fresh : ∀ b ∈ bars, ∀ e ∈ m.entries, e.1 ≠ b.base) (x : Entry) :
    x ∈ (bars.foldl (fun m b => m.insert b.base b.info) m).entries ↔
      x ∈ m.entries ∨ ∃ b ∈ bars, b.entry = x := by
  induction bars generalizing m with
  | nil => simp
  | cons b bars ih =>
    obtain ⟨first, rest⟩ := List.pairwise_cons.mp apart
    have added := OrderedMap.mem_insert (v := b.info) (fresh b (List.mem_cons_self ..))
    rw [List.foldl_cons, ih _ rest, added]
    · constructor
      · rintro ((rfl | old) | ⟨c, member, eq⟩)
        · exact .inr ⟨b, List.mem_cons_self .., rfl⟩
        · exact .inl old
        · exact .inr ⟨c, List.mem_cons_of_mem _ member, eq⟩
      · rintro (old | ⟨c, member, eq⟩)
        · exact .inl (.inr old)
        · rcases List.mem_cons.mp member with rfl | tail
          · exact .inl (.inl eq.symm)
          · exact .inr ⟨c, tail, eq⟩
    · intro c member e mem
      rcases (added e).mp mem with rfl | old
      · intro eq
        have same : b.base = c.base := eq
        exact first c member b.base ⟨b.covers_base, same ▸ c.covers_base⟩
      · exact fresh c (List.mem_cons_of_mem _ member) e old

/-- With disjoint areas no call is dropped: the map holds exactly the areas. -/
theorem mem_addressMap (apart : Apart bars) (x : Entry) :
    x ∈ (addressMap bars).entries ↔ ∃ b ∈ bars, b.entry = x := by
  rw [addressMap, mem_foldl_insert bars _ apart fun b _ e member => absurd member List.not_mem_nil]
  exact ⟨fun h => h.resolve_left List.not_mem_nil, .inr⟩

/-- The cache is still empty, or it holds one of the areas. -/
def Cached (bars : List Bar) (cache : Entry) : Prop := cache = bogus ∨ ∃ b ∈ bars, b.entry = cache

/-- A search answers with the area that covers the address, or finds that there is none. -/
def Answers (bars : List Bar) (addr : BitVec 32) (found : Option Entry) : Prop :=
  (∃ b ∈ bars, Covers b.entry addr ∧ found = some b.entry) ∨
    ((∀ b ∈ bars, ¬ Covers b.entry addr) ∧ found = none)

/-- The cached area covers the address; or some base is at or below it, and the area that covers it,
if there is one, has the greatest such base. -/
def Findable (bars : List Bar) (cache : Entry) (addr : BitVec 32) : Prop :=
  Covers cache addr ∨ ((∃ b ∈ bars, b.base ≤ addr) ∧
    ∀ b ∈ bars, Covers b.entry addr → b.base ≤ addr ∧ ∀ c ∈ bars, c.base ≤ addr → c.base ≤ b.base)

instance (bars : List Bar) (cache : Entry) (addr : BitVec 32) : Decidable (Findable bars cache addr) :=
  inferInstanceAs (Decidable (_ ∨ _))

theorem not_covers_bogus {addr : BitVec 32} (small : addr.toNat < 0x1000) : ¬ Covers bogus addr := by
  intro covered
  change (addr ^^^ ~~~0) &&& ~~~0 = 0 at covered
  rw [show (~~~0 : BitVec 32) = BitVec.allOnes 32 from rfl, BitVec.and_allOnes,
    BitVec.xor_allOnes] at covered
  have ones : addr = BitVec.allOnes 32 := by
    rw [← BitVec.not_not (b := addr), covered]
    rfl
  rw [ones] at small
  exact absurd small (by decide)

theorem cached_lookup {cache cache' : Entry} {addr : BitVec 32} {found : Option Entry}
    (apart : Apart bars) (cached : Cached bars cache)
    (result : lookup (addressMap bars) cache addr = some (found, cache')) : Cached bars cache' := by
  unfold lookup at result
  by_cases hit : Covers cache addr
  · rw [if_pos hit, Option.some.injEq, Prod.mk.injEq] at result
    exact result.2 ▸ cached
  · rw [if_neg hit, Option.map_eq_some_iff] at result
    obtain ⟨it, nearest, eq⟩ := result
    by_cases match_it : Covers it addr
    · rw [if_pos match_it, Prod.mk.injEq] at eq
      exact .inr ((mem_addressMap apart cache').mp (eq.2 ▸ (OrderedMap.floor_eq_some nearest).1))
    · rw [if_neg match_it, Prod.mk.injEq] at eq
      exact eq.2 ▸ cached

theorem lookup_found {cache cache' it : Entry} {addr : BitVec 32} (apart : Apart bars)
    (cached : Cached bars cache) (small : addr.toNat < 0x1000)
    (result : lookup (addressMap bars) cache addr = some (some it, cache')) :
    Answers bars addr (some it) := by
  unfold lookup at result
  by_cases hit : Covers cache addr
  · rw [if_pos hit, Option.some.injEq, Prod.mk.injEq, Option.some.injEq] at result
    rcases cached with rfl | ⟨b, member, rfl⟩
    · exact absurd hit (not_covers_bogus small)
    · exact .inl ⟨b, member, hit, congrArg some result.1.symm⟩
  · rw [if_neg hit, Option.map_eq_some_iff] at result
    obtain ⟨e, nearest, eq⟩ := result
    by_cases serves : Covers e addr
    · rw [if_pos serves, Prod.mk.injEq] at eq
      obtain ⟨b, member, rfl⟩ := (mem_addressMap apart e).mp (OrderedMap.floor_eq_some nearest).1
      exact .inl ⟨b, member, serves, eq.1.symm⟩
    · rw [if_neg serves, Prod.mk.injEq] at eq
      exact absurd eq.1 (by simp)

/-- The search answers exactly when the cache or the nearest lower base can. -/
theorem lookup_answers_iff {cache : Entry} {addr : BitVec 32} (apart : Apart bars)
    (cached : Cached bars cache) (small : addr.toNat < 0x1000) :
    (∃ found cache', lookup (addressMap bars) cache addr = some (found, cache') ∧
      Answers bars addr found) ↔ Findable bars cache addr := by
  unfold lookup
  by_cases hit : Covers cache addr
  · rw [if_pos hit]
    rcases cached with rfl | ⟨b, member, rfl⟩
    · exact absurd hit (not_covers_bogus small)
    · exact ⟨fun _ => .inl hit, fun _ => ⟨_, _, rfl, .inl ⟨b, member, hit, rfl⟩⟩⟩
  · rw [if_neg hit]
    cases nearest : (addressMap bars).floor addr with
    | none =>
      have above := OrderedMap.floor_eq_none.mp nearest
      constructor
      · rintro ⟨found, cache', impossible, -⟩
        exact absurd impossible (by simp)
      · rintro (covered | ⟨⟨b, member, le⟩, -⟩)
        · exact absurd covered hit
        · have beyond : addr < b.base := above b.entry ((mem_addressMap apart _).mpr ⟨b, member, rfl⟩)
          exact absurd le (BitVec.not_le.mpr beyond)
    | some it =>
      obtain ⟨mem, not_above, greatest⟩ := OrderedMap.floor_eq_some nearest
      obtain ⟨n, member, rfl⟩ := (mem_addressMap apart it).mp mem
      have le : n.base ≤ addr := BitVec.not_lt.mp not_above
      have last (c : Bar) (hc : c ∈ bars) (below : c.base ≤ addr) : c.base ≤ n.base :=
        BitVec.not_lt.mp (greatest c.entry ((mem_addressMap apart _).mpr ⟨c, hc, rfl⟩)
          (BitVec.not_lt.mpr below))
      rw [Option.map_some]
      by_cases serves : Covers n.entry addr
      · rw [if_pos serves]
        refine ⟨fun _ => .inr ⟨⟨n, member, le⟩, fun b hb covered => ?_⟩, fun _ =>
          ⟨_, _, rfl, .inl ⟨n, member, serves, rfl⟩⟩⟩
        rw [apart.unique hb member covered serves]
        exact ⟨le, last⟩
      · rw [if_neg serves]
        constructor
        · rintro ⟨found, cache', result, ⟨b, hb, covered, eq⟩ | ⟨none, -⟩⟩
          · rw [Option.some.injEq, Prod.mk.injEq] at result
            rw [eq] at result
            exact absurd result.1 (by simp)
          · exact .inr ⟨⟨n, member, le⟩, fun b hb covered => absurd covered (none b hb)⟩
        · rintro (covered | ⟨-, found⟩)
          · exact absurd covered hit
          · refine ⟨_, _, rfl, .inr ⟨fun b hb covered => serves ?_, rfl⟩⟩
            obtain ⟨below, top⟩ := found b hb covered
            have base : b.base = n.base := BitVec.le_antisymm (last b hb below) (top n member le)
            have same : b = n := apart.unique hb member b.covers_base (base ▸ n.covers_base)
            exact same ▸ covered

end Socrocket.Bus
