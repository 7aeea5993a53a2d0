/- Socrocket/MmuCache/TlbSlots
   digest: The slot numbers of a translation buffer over runs of translations, register accesses and
   flushes. -/

import Socrocket.Base.Run
import Socrocket.Base.Slots
import Socrocket.MmuCache.FaultRegisters

set_option autoImplicit false
set_option relaxedAutoImplicit false

namespace Socrocket.MmuCache

open Socrocket.Base

/-- Empty the buffer. -/
def Mmu.tlbFlush (m : Mmu) : Mmu := { m with tlb := OrderedMap.empty }

section Bookkeeping

/-- The walk that an entry was made of: its context, the entry it ended at and the size of the page. -/
structure Creation where
  context : BitVec 32
  pte : BitVec 32
  pageSize : BitVec 64

/-- The unit, and the last walk that each page was entered by. -/
structure TlbHistory where
  mmu : Mmu
  created : BitVec 32 → Option Creation

/-- What happens to the unit: translations through the buffer, each with the tables it finds, those
through the other buffer, accesses to the registers, and flushes. -/
inductive TlbEvent where
  | translate (b : AhbMemory) (va asi : BitVec 32) (isDbg isWrite cacheable : Bool)
  | other (tlb : Tlb) (size : ℕ) (b : AhbMemory) (va asi : BitVec 32) (isDbg isWrite cacheable : Bool)
  | writeMcr (data : BitVec 32)
  | writeMctpr (data : BitVec 32)
  | writeMctxr (data : BitVec 32)
  | readMfsr
  | flush

variable (cfg : MmuConfig) (tlbSize : ℕ)

/-- A translation enters its page: the walk ends at a page table entry, and no trap is taken. -/
def Enters (m : Mmu) (b : AhbMemory) (va asi : BitVec 32) (isDbg isWrite : Bool) : Prop :=
  entryType (getPhysicalAddress cfg m b va asi isDbg isWrite).pde = .pte ∧
    ((getPhysicalAddress cfg m b va asi isDbg isWrite).errorCode ≠ 0 → ¬Trapped m asi)

instance (m : Mmu) (b : AhbMemory) (va asi : BitVec 32) (isDbg isWrite : Bool) :
    Decidable (Enters cfg m b va asi isDbg isWrite) :=
  inferInstanceAs (Decidable (_ ∧ _))

/-- Perform one event. -/
def TlbHistory.step (s : TlbHistory) : TlbEvent → Option TlbHistory
  | .translate b va asi isDbg isWrite cacheable =>
    let walk := getPhysicalAddress cfg s.mmu b va asi isDbg isWrite
    some
      { mmu := (tlbLookup cfg tlbSize s.mmu b va asi isDbg isWrite cacheable).mmu
        created := if Enters cfg s.mmu b va asi isDbg isWrite then
            Function.update s.created (vpnOf cfg va)
              (some ⟨s.mmu.contextReg, walk.pde, walk.pageSize⟩)
          else s.created }
  | .other tlb size b va asi isDbg isWrite cacheable =>
    let found := tlbLookup cfg size { s.mmu with tlb := tlb } b va asi isDbg isWrite cacheable
    some { s with mmu := { found.mmu with tlb := s.mmu.tlb } }
  | .writeMcr data => some { s with mmu := s.mmu.writeMcr data }
  | .writeMctpr data => some { s with mmu := s.mmu.writeMctpr data }
  | .writeMctxr data => some { s with mmu := s.mmu.writeMctxr data }
  | .readMfsr => some { s with mmu := s.mmu.readMfsr.2 }
  | .flush => some { s with mmu := s.mmu.tlbFlush }

/-- A removal takes exactly one entry from the buffer and returns its number. -/
def RemovesOne (tlb : Tlb) (removed : Tlb × ℕ) : Prop :=
  ∃ e ∈ tlb.entries, (∀ x, x ∈ removed.1.entries ↔ x ∈ tlb.entries ∧ x ≠ e) ∧ removed.2 = e.2.tlbNo

/-- A translation that removes an entry removes one and returns its number. -/
def RemovalRight (s : TlbHistory) : TlbEvent → Prop
  | .translate b va asi isDbg isWrite _ =>
    Enters cfg s.mmu b va asi isDbg isWrite → s.mmu.tlb.entries.length = tlbSize →
      RemovesOne s.mmu.tlb ((tlbRemove cfg tlbSize s.mmu).1.tlb, (tlbRemove cfg tlbSize s.mmu).2)
  | _ => True

/-- The entries of the buffer hold different slots, and the page each is the last walk of. -/
structure SlotBook (s : TlbHistory) : Prop where
  slots : SlotsSound PteContext.tlbNo tlbSize s.mmu.tlb
  created : ∀ e ∈ s.mmu.tlb.entries, s.created e.1 = some ⟨e.2.context, e.2.pte, e.2.pageSize⟩

/-- Along a run every removal is right, and the book is kept in every state. -/
def KeepsSlots (s : TlbHistory) (events : List TlbEvent) : Prop :=
  Run.Along (TlbHistory.step cfg tlbSize) (RemovalRight cfg tlbSize) s events ∧
    ∀ before after u, events = before ++ after →
      Run.run (TlbHistory.step cfg tlbSize) s before = some u → SlotBook tlbSize u

/-- The number that a page is to get is free: while there is room, the number of entries is the number
of no other page; in a full buffer with random replacement the first entry has number zero. -/
def FreeFor (tlb : Tlb) (vpn : BitVec 32) : Prop :=
  if tlb.entries.length = tlbSize then
    cfg.tlbRep ≠ 0 → ∀ e ∈ tlb.entries.head?, e.2.tlbNo = 0
  else ∀ e ∈ tlb.entries, e.1 ≠ vpn → e.2.tlbNo ≠ tlb.entries.length

instance (tlb : Tlb) (vpn : BitVec 32) : Decidable (FreeFor cfg tlbSize tlb vpn) :=
  inferInstanceAs (Decidable (if tlb.entries.length = tlbSize then
      cfg.tlbRep ≠ 0 → ∀ e ∈ tlb.entries.head?, e.2.tlbNo = 0
    else ∀ e ∈ tlb.entries, e.1 ≠ vpn → e.2.tlbNo ≠ tlb.entries.length))

/-- A translation that enters its page finds the number for it free. -/
def NumberFree (s : TlbHistory) : TlbEvent → Prop
  | .translate b va asi isDbg isWrite _ =>
    Enters cfg s.mmu b va asi isDbg isWrite → FreeFor cfg tlbSize s.mmu.tlb (vpnOf cfg va)
  | _ => True

instance (s : TlbHistory) : ∀ e, Decidable (NumberFree cfg tlbSize s e)
  | .translate b va asi isDbg isWrite _ =>
    inferInstanceAs (Decidable (Enters cfg s.mmu b va asi isDbg isWrite →
      FreeFor cfg tlbSize s.mmu.tlb (vpnOf cfg va)))
  | .other .. | .writeMcr _ | .writeMctpr _ | .writeMctxr _ | .readMfsr | .flush => isTrue trivial

/-- A page is entered that the buffer does not hold, or that is the next to be removed. -/
def FreshPage (s : TlbHistory) : TlbEvent → Prop
  | .translate b va asi isDbg isWrite _ =>
    Enters cfg s.mmu b va asi isDbg isWrite →
      (∀ e ∈ s.mmu.tlb.entries, e.1 ≠ vpnOf cfg va) ∨
        s.mmu.tlb.entries.length = tlbSize ∧ ∃ e ∈ s.mmu.tlb.entries.head?, e.1 = vpnOf cfg va
  | _ => True

/-- No entry has aged, and the random counter stands still. -/
structure Unaged (m : Mmu) : Prop where
  ages : ∀ e ∈ m.tlb.entries, e.2.lru = 0xfffffffffffffffe
  count : m.mPseudoRand = 0

end Bookkeeping

section Entering

variable {cfg : MmuConfig} {tlbSize : ℕ} {m : Mmu} {b : AhbMemory} {va asi : BitVec 32}
  {isDbg isWrite cacheable : Bool}

private theorem oldest_kept (es : List (BitVec 32 × PteContext)) (e : BitVec 32 × PteContext)
    (ages : ∀ x ∈ es, x.2.lru = 0xfffffffffffffffe) :
    minLru es (some e, 0xfffffffffffffffe) = (some e, 0xfffffffffffffffe) := by
  induction es with
  | nil => rfl
  | cons x es ih =>
    have age := ages x (List.mem_cons_self ..)
    rw [minLru, List.foldl_cons, age, if_neg (BitVec.lt_irrefl _)]
    exact ih fun y member => ages y (List.mem_cons_of_mem _ member)

theorem tlbRemove_eq (unaged : Unaged m) {e : BitVec 32 × PteContext}
    {es : List (BitVec 32 × PteContext)} (entries : m.tlb.entries = e :: es) :
    tlbRemove cfg tlbSize m =
      ({ m with tlb := m.tlb.erase e.1 }, if cfg.tlbRep = 0 then e.2.tlbNo else 0) := by
  unfold tlbRemove
  by_cases lru : cfg.tlbRep = 0
  · have ages := unaged.ages
    rw [entries] at ages
    have first := ages e (List.mem_cons_self ..)
    rw [if_pos lru, if_pos lru, entries, minLru, List.foldl_cons, first, if_pos (by decide), ← minLru,
      oldest_kept es e fun x member => ages x (List.mem_cons_of_mem _ member)]
  · rw [if_neg lru, if_neg lru, unaged.count, Nat.zero_mod, entries, List.head?_cons]
    exact congrArg (·, 0) (if_pos rfl)

/-- Units with the same buffer, context and random counter. -/
structure SameBuffer (m m' : Mmu) : Prop where
  tlb : m'.tlb = m.tlb
  contextReg : m'.contextReg = m.contextReg
  mPseudoRand : m'.mPseudoRand = m.mPseudoRand

theorem SameBuffer.unaged {m' : Mmu} (same : SameBuffer m m') (unaged : Unaged m) : Unaged m' :=
  ⟨same.tlb ▸ unaged.ages, same.mPseudoRand.trans unaged.count⟩

/-- A lookup takes a trap, or its walk goes on to the buffer of a unit that is the same for it. -/
theorem lookup_cases (cfg : MmuConfig) (tlbSize : ℕ) (m : Mmu) (b : AhbMemory) (va asi : BitVec 32)
    (isDbg isWrite cacheable : Bool) :
    ((getPhysicalAddress cfg m b va asi isDbg isWrite).errorCode ≠ 0 ∧ Trapped m asi ∧
        SameBuffer m (tlbLookup cfg tlbSize m b va asi isDbg isWrite cacheable).mmu ∧
        (tlbLookup cfg tlbSize m b va asi isDbg isWrite cacheable).failed = true) ∨
      ((getPhysicalAddress cfg m b va asi isDbg isWrite).errorCode ≠ 0 → ¬Trapped m asi) ∧
        ∃ m', SameBuffer m m' ∧
          tlbLookup cfg tlbSize m b va asi isDbg isWrite cacheable =
            enterPte cfg tlbSize m' (getPhysicalAddress cfg m b va asi isDbg isWrite) va
              cacheable := by
  unfold tlbLookup
  dsimp only
  by_cases error : (getPhysicalAddress cfg m b va asi isDbg isWrite).errorCode ≠ 0
  · rw [if_pos error]
    by_cases trapped : Trapped m asi
    · refine .inl ⟨error, trapped, ?_⟩
      rw [if_pos (show Trapped (recordFault ..) asi from trapped)]
      exact ⟨⟨rfl, rfl, rfl⟩, rfl⟩
    · refine .inr ⟨fun _ => trapped, _, ?_, if_neg (show ¬Trapped (recordFault ..) asi from trapped)⟩
      exact ⟨rfl, rfl, rfl⟩
  · rw [if_neg error]
    exact .inr ⟨fun fails => absurd fails error, m, ⟨rfl, rfl, rfl⟩, rfl⟩

theorem lookup_of_not_enters (tlbSize : ℕ) (cacheable : Bool)
    (stays : ¬Enters cfg m b va asi isDbg isWrite) :
    SameBuffer m (tlbLookup cfg tlbSize m b va asi isDbg isWrite cacheable).mmu := by
  rcases lookup_cases cfg tlbSize m b va asi isDbg isWrite cacheable with
    ⟨-, -, same, -⟩ | ⟨goesOn, m', same, eq⟩
  · exact same
  · rw [eq, enterPte]
    cases type : entryType (getPhysicalAddress cfg m b va asi isDbg isWrite).pde with
    | pte => exact absurd ⟨type, goesOn⟩ stays
    | invalid => exact same
    | ptd => exact same
    | reserved => exact same

theorem lookup_of_enters (tlbSize : ℕ) (cacheable : Bool)
    (enters : Enters cfg m b va asi isDbg isWrite) :
    ∃ m', SameBuffer m m' ∧
      tlbLookup cfg tlbSize m b va asi isDbg isWrite cacheable =
        enterPte cfg tlbSize m' (getPhysicalAddress cfg m b va asi isDbg isWrite) va cacheable := by
  rcases lookup_cases cfg tlbSize m b va asi isDbg isWrite cacheable with
    ⟨error, trapped, -⟩ | ⟨-, found⟩
  · exact absurd trapped (enters.2 error)
  · exact found

theorem lookup_failed_iff :
    (tlbLookup cfg tlbSize m b va asi isDbg isWrite cacheable).failed = true ↔
      ¬Enters cfg m b va asi isDbg isWrite := by
  rcases lookup_cases cfg tlbSize m b va asi isDbg isWrite cacheable with
    ⟨error, trapped, -, failed⟩ | ⟨goesOn, m', -, eq⟩
  · exact iff_of_true failed fun enters => enters.2 error trapped
  · rw [eq, enterPte, Enters, and_iff_left goesOn]
    cases entryType (getPhysicalAddress cfg m b va asi isDbg isWrite).pde with
    | pte => simp
    | invalid => simp
    | ptd => simp
    | reserved => simp

theorem lookup_cacheable (enters : Enters cfg m b va asi isDbg isWrite) :
    (tlbLookup cfg tlbSize m b va asi isDbg isWrite cacheable).cacheable =
      decide ((getPhysicalAddress cfg m b va asi isDbg isWrite).pde &&& 1#32 <<< 7 ≠ 0) := by
  obtain ⟨m', -, eq⟩ := lookup_of_enters tlbSize cacheable enters
  rw [eq]
  simp only [enterPte, enters.1]

/-- The entry that a walk leaves for its page. -/
def newEntry (m : Mmu) (walk : PageWalk) (tlbNo : ℕ) : PteContext :=
  ⟨tlbNo, m.contextReg, walk.pde, 0xfffffffffffffffe, walk.pageSize⟩

theorem lookup_of_room (enters : Enters cfg m b va asi isDbg isWrite)
    (room : m.tlb.entries.length ≠ tlbSize) :
    (tlbLookup cfg tlbSize m b va asi isDbg isWrite cacheable).mmu.tlb =
      m.tlb.set (vpnOf cfg va) (newEntry m (getPhysicalAddress cfg m b va asi isDbg isWrite)
        m.tlb.entries.length) := by
  obtain ⟨m', same, eq⟩ := lookup_of_enters tlbSize cacheable enters
  rw [eq]
  simp only [enterPte, enters.1, same.tlb, if_neg room, same.contextReg, newEntry]

theorem lookup_of_full (unaged : Unaged m) (enters : Enters cfg m b va asi isDbg isWrite)
    (full : m.tlb.entries.length = tlbSize) {e : BitVec 32 × PteContext}
    {es : List (BitVec 32 × PteContext)} (entries : m.tlb.entries = e :: es) :
    (tlbLookup cfg tlbSize m b va asi isDbg isWrite cacheable).mmu.tlb =
      (m.tlb.erase e.1).set (vpnOf cfg va)
        (newEntry m (getPhysicalAddress cfg m b va asi isDbg isWrite)
          (if cfg.tlbRep = 0 then e.2.tlbNo else 0)) := by
  obtain ⟨m', same, eq⟩ := lookup_of_enters tlbSize cacheable enters
  have entries' : m'.tlb.entries = e :: es := same.tlb ▸ entries
  rw [eq]
  simp only [enterPte, enters.1, same.tlb, if_pos full,
    tlbRemove_eq (same.unaged unaged) entries', same.contextReg, newEntry]

theorem tlbRemove_mPseudoRand : (tlbRemove cfg tlbSize m).1.mPseudoRand = m.mPseudoRand := by
  unfold tlbRemove
  by_cases lru : cfg.tlbRep = 0
  · rw [if_pos lru]
    cases (minLru m.tlb.entries (none, 0xffffffffffffffff)).1 with
    | none => rfl
    | some e => rfl
  · rw [if_neg lru]
    dsimp only
    cases m.tlb.entries.head? with
    | none => rfl
    | some e =>
      dsimp only
      by_cases zero : m.mPseudoRand % (tlbSize + 1) = 0
      · rw [if_pos zero]
      · rw [if_neg zero]

theorem lookup_mPseudoRand :
    (tlbLookup cfg tlbSize m b va asi isDbg isWrite cacheable).mmu.mPseudoRand = m.mPseudoRand := by
  by_cases enters : Enters cfg m b va asi isDbg isWrite
  · obtain ⟨m', same, eq⟩ := lookup_of_enters tlbSize cacheable enters
    rw [eq]
    by_cases full : m'.tlb.entries.length = tlbSize
    · simp only [enterPte, enters.1, if_pos full, tlbRemove_mPseudoRand, same.mPseudoRand]
    · simp only [enterPte, enters.1, if_neg full, same.mPseudoRand]
  · exact (lookup_of_not_enters _ _ enters).mPseudoRand

theorem removesOne_iff (cfg : MmuConfig) (tlbSize : ℕ) (unaged : Unaged m) {e : BitVec 32 × PteContext}
    {es : List (BitVec 32 × PteContext)} (entries : m.tlb.entries = e :: es) :
    RemovesOne m.tlb ((tlbRemove cfg tlbSize m).1.tlb, (tlbRemove cfg tlbSize m).2) ↔
      (cfg.tlbRep ≠ 0 → e.2.tlbNo = 0) := by
  have member : e ∈ m.tlb.entries := entries ▸ List.mem_cons_self ..
  have others (x : BitVec 32 × PteContext) :
      x ∈ (m.tlb.erase e.1).entries ↔ x ∈ m.tlb.entries ∧ x ≠ e := by
    rw [OrderedMap.mem_erase]
    refine and_congr_right fun held => not_congr
      ⟨fun key => OrderedMap.value_unique held member key, ?_⟩
    rintro rfl
    rfl
  rw [tlbRemove_eq unaged entries]
  constructor
  · rintro ⟨d, held, rest, number⟩ random
    have taken : d = e := by
      by_contra other
      exact ((rest d).mp ((others d).mpr ⟨held, other⟩)).2 rfl
    rw [taken, if_neg random] at number
    exact number.symm
  · intro zero
    refine ⟨e, member, others, ?_⟩
    by_cases lru : cfg.tlbRep = 0
    · exact if_pos lru
    · exact (if_neg lru).trans (zero lru).symm

end Entering

section Runs

variable {cfg : MmuConfig} {tlbSize : ℕ} {s t : TlbHistory} {b : AhbMemory} {va asi : BitVec 32}
  {isDbg isWrite cacheable : Bool} {e : TlbEvent}

/-- The book and the random counter are left, and the buffer is kept or emptied. -/
structure Passive (s t : TlbHistory) : Prop where
  created : t.created = s.created
  count : t.mmu.mPseudoRand = s.mmu.mPseudoRand
  tlb : t.mmu.tlb = s.mmu.tlb ∨ t.mmu.tlb = .empty

theorem passive_step (next : TlbHistory.step cfg tlbSize s e = some t) :
    match e with
    | .translate .. => True
    | _ => Passive s t := by
  cases e with
  | translate => trivial
  | other tlb size b va asi isDbg isWrite cacheable =>
    obtain rfl := Option.some.inj next
    exact ⟨rfl, lookup_mPseudoRand, .inl rfl⟩
  | writeMcr data | writeMctpr data | writeMctxr data | readMfsr =>
    obtain rfl := Option.some.inj next
    exact ⟨rfl, rfl, .inl rfl⟩
  | flush =>
    obtain rfl := Option.some.inj next
    exact ⟨rfl, rfl, .inr rfl⟩

namespace Passive

variable (passive : Passive s t)
include passive

theorem mem {x : BitVec 32 × PteContext} (member : x ∈ t.mmu.tlb.entries) :
    x ∈ s.mmu.tlb.entries := by
  rcases passive.tlb with same | empty
  · exact same ▸ member
  · rw [empty] at member
    exact absurd member List.not_mem_nil

theorem unaged (before : Unaged s.mmu) : Unaged t.mmu :=
  ⟨fun x member => before.ages x (passive.mem member), passive.count.trans before.count⟩

theorem book (before : SlotBook tlbSize s) : SlotBook tlbSize t where
  slots := by
    rcases passive.tlb with same | empty
    · exact same ▸ before.slots
    · exact empty ▸ .empty
  created x member := passive.created ▸ before.created x (passive.mem member)

end Passive

theorem slotBook_set {tlb : Tlb} {vpn : BitVec 32} {entry : PteContext} {m : Mmu}
    (created : ∀ x ∈ tlb.entries, s.created x.1 = some ⟨x.2.context, x.2.pte, x.2.pageSize⟩)
    (set : m.tlb = tlb.set vpn entry) :
    SlotBook tlbSize ⟨m, Function.update s.created vpn
        (some ⟨entry.context, entry.pte, entry.pageSize⟩)⟩ ↔
      SlotsSound PteContext.tlbNo tlbSize (tlb.set vpn entry) := by
  constructor
  · intro book
    exact set ▸ book.slots
  · intro slots
    refine ⟨set ▸ slots, fun x member => ?_⟩
    have held : x ∈ (tlb.set vpn entry).entries := set ▸ member
    rcases (OrderedMap.mem_set x).mp held with rfl | ⟨old, other⟩
    · exact Function.update_self ..
    · exact (Function.update_of_ne other ..).trans (created x old)

theorem translate_iff (pos : 1 ≤ tlbSize) (book : SlotBook tlbSize s) (unaged : Unaged s.mmu)
    (next : TlbHistory.step cfg tlbSize s (.translate b va asi isDbg isWrite cacheable) = some t) :
    RemovalRight cfg tlbSize s (.translate b va asi isDbg isWrite cacheable) ∧ SlotBook tlbSize t ↔
      NumberFree cfg tlbSize s (.translate b va asi isDbg isWrite cacheable) := by
  obtain rfl := Option.some.inj next
  unfold RemovalRight NumberFree FreeFor
  by_cases enters : Enters cfg s.mmu b va asi isDbg isWrite
  · by_cases full : s.mmu.tlb.entries.length = tlbSize
    · obtain ⟨d, ds, entries⟩ := List.exists_cons_of_length_pos (full ▸ pos)
      have member : d ∈ s.mmu.tlb.entries := entries ▸ List.mem_cons_self ..
      have removal := removesOne_iff cfg tlbSize unaged entries
      have first : (∀ x ∈ s.mmu.tlb.entries.head?, x.2.tlbNo = 0) ↔ d.2.tlbNo = 0 := by
        rw [entries, List.head?_cons]
        simp
      simp only [enters, full, true_implies, if_true, removal, first]
      refine and_iff_left_of_imp fun zero => ?_
      refine (slotBook_set (fun x held => book.created x ((OrderedMap.mem_erase x).mp held).1)
        (lookup_of_full unaged enters full entries)).mpr (book.slots.exchange member ?_)
      by_cases lru : cfg.tlbRep = 0
      · exact if_pos lru
      · exact (if_neg lru).trans (zero lru).symm
    · have room : s.mmu.tlb.entries.length < tlbSize := lt_of_le_of_ne book.slots.count full
      simp only [enters, full, true_implies, false_implies, if_true, if_false, true_and]
      exact (slotBook_set book.created (lookup_of_room enters full)).trans
        (book.slots.set_iff room room)
  · simp only [enters, false_implies, if_false, true_and, iff_true]
    have same := lookup_of_not_enters tlbSize cacheable enters
    exact ⟨same.tlb ▸ book.slots, fun x member => book.created x (same.tlb ▸ member)⟩

theorem ages_set {tlb : Tlb} {vpn : BitVec 32} {m : Mmu} {walk : PageWalk} {n : ℕ}
    (ages : ∀ x ∈ tlb.entries, x.2.lru = 0xfffffffffffffffe) :
    ∀ x ∈ (tlb.set vpn (newEntry m walk n)).entries, x.2.lru = 0xfffffffffffffffe := by
  intro x member
  rcases (OrderedMap.mem_set x).mp member with rfl | ⟨old, -⟩
  · rfl
  · exact ages x old

theorem unaged_step (pos : 1 ≤ tlbSize) (unaged : Unaged s.mmu)
    (next : TlbHistory.step cfg tlbSize s e = some t) : Unaged t.mmu := by
  cases e with
  | translate b va asi isDbg isWrite cacheable =>
    obtain rfl := Option.some.inj next
    refine ⟨?_, lookup_mPseudoRand.trans unaged.count⟩
    dsimp only
    by_cases enters : Enters cfg s.mmu b va asi isDbg isWrite
    · by_cases full : s.mmu.tlb.entries.length = tlbSize
      · obtain ⟨d, ds, entries⟩ := List.exists_cons_of_length_pos (full ▸ pos)
        rw [lookup_of_full unaged enters full entries]
        exact ages_set fun x held => unaged.ages x ((OrderedMap.mem_erase x).mp held).1
      · rw [lookup_of_room enters full]
        exact ages_set unaged.ages
    · exact ((lookup_of_not_enters _ _ enters).unaged unaged).ages
  | _ =>
    have passive : Passive s t := passive_step next
    exact passive.unaged unaged

/-- An event meets its obligation and keeps the book if and only if the number it gives is free. -/
theorem step_iff (pos : 1 ≤ tlbSize) (book : SlotBook tlbSize s) (unaged : Unaged s.mmu)
    (next : TlbHistory.step cfg tlbSize s e = some t) :
    RemovalRight cfg tlbSize s e ∧ SlotBook tlbSize t ↔ NumberFree cfg tlbSize s e := by
  cases e with
  | translate b va asi isDbg isWrite cacheable => exact translate_iff pos book unaged next
  | _ =>
    have passive : Passive s t := passive_step next
    exact iff_of_true ⟨trivial, passive.book book⟩ trivial

/-- While there is room, the numbers are those below the number of entries. -/
structure Filled (tlbSize : ℕ) (s : TlbHistory) : Prop where
  book : SlotBook tlbSize s
  unaged : Unaged s.mmu
  low : s.mmu.tlb.entries.length < tlbSize →
    ∀ e ∈ s.mmu.tlb.entries, e.2.tlbNo < s.mmu.tlb.entries.length

theorem numberFree_of_fresh (lru : cfg.tlbRep = 0) (filled : Filled tlbSize s)
    (fresh : FreshPage cfg tlbSize s e) : NumberFree cfg tlbSize s e := by
  cases e with
  | translate b va asi isDbg isWrite cacheable =>
    intro _
    unfold FreeFor
    by_cases full : s.mmu.tlb.entries.length = tlbSize
    · rw [if_pos full]
      exact fun random => absurd lru random
    · rw [if_neg full]
      exact fun x member _ =>
        (filled.low (lt_of_le_of_ne filled.book.slots.count full) x member).ne
  | other | writeMcr | writeMctpr | writeMctxr | readMfsr | flush => trivial

theorem length_set_of_fresh {tlb : Tlb} {vpn : BitVec 32} {entry : PteContext}
    (fresh : ∀ e ∈ tlb.entries, e.1 ≠ vpn) :
    (tlb.set vpn entry).entries.length = tlb.entries.length + 1 := by
  have same : (tlb.erase vpn).entries = tlb.entries :=
    List.filter_eq_self.mpr fun e member => decide_eq_true (fresh e member)
  rw [OrderedMap.perm_set.length_eq, List.length_cons, same]

/-- Fresh pages fill the buffer from below. -/
theorem filled_step (pos : 1 ≤ tlbSize) (lru : cfg.tlbRep = 0) (filled : Filled tlbSize s)
    (fresh : FreshPage cfg tlbSize s e) (next : TlbHistory.step cfg tlbSize s e = some t) :
    Filled tlbSize t := by
  refine ⟨((step_iff pos filled.book filled.unaged next).mpr
    (numberFree_of_fresh lru filled fresh)).2, unaged_step pos filled.unaged next, ?_⟩
  cases e with
  | translate b va asi isDbg isWrite cacheable =>
    obtain rfl := Option.some.inj next
    dsimp only
    by_cases enters : Enters cfg s.mmu b va asi isDbg isWrite
    · by_cases full : s.mmu.tlb.entries.length = tlbSize
      · obtain ⟨d, ds, entries⟩ := List.exists_cons_of_length_pos (full ▸ pos)
        have member : d ∈ s.mmu.tlb.entries := entries ▸ List.mem_cons_self ..
        have gone : ∀ x ∈ (s.mmu.tlb.erase d.1).entries, x.1 ≠ vpnOf cfg va := by
          intro x held
          obtain ⟨old, other⟩ := (OrderedMap.mem_erase x).mp held
          rcases fresh enters with absent | ⟨-, first, head, key⟩
          · exact absent x old
          · rw [entries, List.head?_cons, Option.mem_some_iff] at head
            exact key ▸ head ▸ other
        have left := (OrderedMap.perm_erase member).length_eq
        rw [List.length_cons] at left
        rw [lookup_of_full filled.unaged enters full entries, length_set_of_fresh gone]
        omega
      · rw [lookup_of_room enters full]
        have absent : ∀ x ∈ s.mmu.tlb.entries, x.1 ≠ vpnOf cfg va :=
          (fresh enters).resolve_right fun held => full held.1
        rw [length_set_of_fresh absent]
        intro _ x member
        rcases (OrderedMap.mem_set x).mp member with rfl | ⟨old, -⟩
        · exact Nat.lt_succ_self _
        · exact (filled.low (lt_of_le_of_ne filled.book.slots.count full) x old).trans
            (Nat.lt_succ_self _)
    · have same := (lookup_of_not_enters tlbSize cacheable enters).tlb
      exact same ▸ filled.low
  | _ =>
    have passive : Passive s t := passive_step next
    rcases passive.tlb with same | empty
    · exact same ▸ filled.low
    · exact fun _ x member => absurd (empty ▸ member) List.not_mem_nil

theorem run_exists (cfg : MmuConfig) (tlbSize : ℕ) (s : TlbHistory) (events : List TlbEvent) :
    ∃ t, Run.run (TlbHistory.step cfg tlbSize) s events = some t := by
  have progress : ∀ s e, True → True → ∃ t, TlbHistory.step cfg tlbSize s e = some t ∧ True := by
    intro s e _ _
    cases e with
    | translate | other | writeMcr | writeMctpr | writeMctxr | readMfsr | flush =>
      exact ⟨_, rfl, trivial⟩
  have free : Run.Along (TlbHistory.step cfg tlbSize) (fun _ _ => True) s events :=
    Run.along_of_forall s fun _ _ => trivial
  obtain ⟨t, reached, -⟩ := Run.run_completes progress trivial free
  exact ⟨t, reached⟩

end Runs

variable {cfg : MmuConfig} {tlbSize : ℕ}

/-- A unit whose buffer is empty, and no page entered yet. -/
def TlbHistory.start (m : Mmu) : TlbHistory :=
  ⟨{ m with tlb := OrderedMap.empty, mPseudoRand := 0 }, fun _ => none⟩

/-- Under the replacement of the least recently used entry the numbers are free along every run that
enters no page which the buffer holds, but for the next to be removed. -/
theorem fresh_pages_free (pos : 1 ≤ tlbSize) (lru : cfg.tlbRep = 0) (m : Mmu)
    {events : List TlbEvent}
    (fresh : Run.Along (TlbHistory.step cfg tlbSize) (FreshPage cfg tlbSize) (.start m) events) :
    Run.Along (TlbHistory.step cfg tlbSize) (NumberFree cfg tlbSize) (.start m) events := by
  refine Run.along_of_along (P := Filled tlbSize)
    (fun s e filled ok => numberFree_of_fresh lru filled ok)
    (fun s e t filled ok next => filled_step pos lru filled ok next) ?_ fresh
  have none : ∀ e ∈ (TlbHistory.start m).mmu.tlb.entries, False := fun _ => List.not_mem_nil
  exact ⟨⟨.empty, fun e member => (none e member).elim⟩, ⟨fun e member => (none e member).elim, rfl⟩,
    fun _ e member => (none e member).elim⟩

/-- A run keeps the slots of the buffer in order if and only if every page that it enters gets a free
number. A page that the buffer holds already gets a new number, and random replacement gives zero away
with whatever entry comes first. -/
theorem tlb_slots_iff (cfg : MmuConfig) (tlbSize : ℕ) (pos : 1 ≤ tlbSize) (m : Mmu)
    (events : List TlbEvent) :
    KeepsSlots cfg tlbSize (.start m) events ↔
      Run.Along (TlbHistory.step cfg tlbSize) (NumberFree cfg tlbSize) (.start m) events := by
  obtain ⟨t, reached⟩ := run_exists cfg tlbSize (.start m) events
  have none : ∀ e ∈ (TlbHistory.start m).mmu.tlb.entries, False := fun _ => List.not_mem_nil
  exact Run.along_throughout_iff (Q := fun s => Unaged s.mmu)
    (fun s e t book unaged next => step_iff pos book unaged next)
    (fun s e t _ unaged next => unaged_step pos unaged next)
    ⟨.empty, fun e member => (none e member).elim⟩ ⟨fun e member => (none e member).elim, rfl⟩ reached

/-- The first load of a page of the identity tables. -/
def identityLoad (va : BitVec 32) : TlbEvent :=
  .translate ⟨identityTables, [], []⟩ va 0xb false false true

/-- Two loads of one page and one of another leave two entries with number one. -/
theorem slots_collide :
    ¬∀ (cfg : MmuConfig) (tlbSize : ℕ), 1 ≤ tlbSize → ∀ (m : Mmu) (events : List TlbEvent),
      KeepsSlots cfg tlbSize (.start m) events := by
  intro all
  have keeps := all smallMmu 2 (by decide) enabledMmu
    [identityLoad 0, identityLoad 0, identityLoad 0x2000]
  obtain ⟨t, reached⟩ := run_exists smallMmu 2 (.start enabledMmu)
    [identityLoad 0, identityLoad 0, identityLoad 0x2000]
  have distinct := (keeps.2 _ [] t (List.append_nil _).symm reached).slots.distinct
  have numbers : (Run.run (TlbHistory.step smallMmu 2) (.start enabledMmu)
      [identityLoad 0, identityLoad 0, identityLoad 0x2000]).map
        (fun t => t.mmu.tlb.entries.map fun e => e.2.tlbNo) = some [1, 1] := by decide +kernel
  rw [reached, Option.map_some, Option.some.injEq] at numbers
  rw [numbers] at distinct
  exact absurd distinct (by decide)

/-- Two pages get different numbers. -/
theorem tlb_slots_two : KeepsSlots smallMmu 2 (.start enabledMmu)
    [identityLoad 0, identityLoad 0x2000] := by
  refine (tlb_slots_iff smallMmu 2 (by decide) enabledMmu _).mpr ?_
  decide +kernel

end Socrocket.MmuCache
