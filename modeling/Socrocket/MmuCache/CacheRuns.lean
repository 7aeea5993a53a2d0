/- Socrocket/MmuCache/CacheRuns
   digest: Runs of one cache whose missed reads wait for their transfers, with any answers of the
   memory behind it; what a step does to the lines. -/

import Socrocket.Base.Run
import Socrocket.MmuCache.CacheLines

set_option autoImplicit false
set_option relaxedAutoImplicit false

namespace Socrocket.MmuCache

open Socrocket.Base.ByteMemory
open Socrocket.Base.Run

namespace VectorCache

variable (cfg : Config)

/-- Write a tag at its diagnostic address. `none` is a line outside the cache memory. -/
def writeCacheTag (setlock : Bool) (c : VectorCache) (address data : BitVec 32) :
    Option VectorCache :=
  let idx := cfg.getIdx address
  let way := (cfg.getTag address &&& 0x3).toNat
  if size cfg ≤ position cfg idx way then none
  else some (modifyLine cfg c idx way fun line =>
    { line with
      atag := data >>> 10
      lrr := (data &&& 0x100) >>> 9
      lock := if setlock ∧ way ≠ cfg.mSets then (data &&& 0x100) >>> 8 else 0
      valid := data &&& 0xff })

end VectorCache

open VectorCache

/-- A cache under its control register, and the read that waits for its transfer. -/
structure CacheRun where
  cache : VectorCache
  ccr : BitVec 32
  waiting : Option (Request × ReadPath)

/-- What happens to a cache: the two halves of `mem_read`, with the answer of the memory behind it in
between, `mem_write`, flushes, snoops, writes of the control register and diagnostic tag writes. -/
inductive CacheOp where
  | startRead (r : Request) (data : Buffer) (reply : Reply)
  | endRead (data ahbData : Buffer) (reply : Reply) (cacheableLocal : Bool)
  | memWrite (r : Request) (data : Buffer) (reply : Reply)
  | flush (reply : Reply)
  | snoop (s : Snoop)
  | writeCcr (ccr : BitVec 32)
  | writeCacheTag (address data : BitVec 32)

variable (cfg : Config) (setlock : Bool)

/-- Perform one step. Only one read waits at a time. -/
def opStep (s : CacheRun) : CacheOp → Option CacheRun
  | .startRead r data reply =>
    if s.waiting.isSome then none
    else
      match memReadLookup cfg s.ccr s.cache r with
      | .hit way => some { s with cache := (memReadHit cfg s.cache r data reply way).1 }
      | path => some { s with waiting := some (r, path) }
  | .endRead data ahbData reply cacheableLocal =>
    match s.waiting with
    | some (r, .refill cacheHit ahbAddress ahbLen) =>
      (memReadRefill cfg s.ccr s.cache r cacheHit ahbAddress ahbLen data ahbData reply
        cacheableLocal).map fun h =>
          { s with
            cache := h.1
            waiting := none }
    | some _ => some { s with
        cache := { s.cache with bypassops := s.cache.bypassops + 1 }
        waiting := none }
    | none => none
  | .memWrite r data reply =>
    some { s with cache :=
      if r.asi ≠ 0x1c ∧ checkMode cfg s.ccr &&& 0x1 ≠ 0 then
        (memWriteUpdate cfg s.cache r data reply).1
      else { s.cache with bypassops := s.cache.bypassops + 1 } }
  | .flush reply => some { s with cache := (VectorCache.flush cfg s.cache reply).1 }
  | .snoop snoop => (snoopInvalidate cfg s.ccr s.cache snoop).map fun c => { s with cache := c }
  | .writeCcr ccr => some { s with ccr := ccr }
  | .writeCacheTag address data =>
    (VectorCache.writeCacheTag cfg setlock s.cache address data).map fun c => { s with cache := c }

/-- The registers of all lines are zero, and no read waits. -/
def PoweredOn (s : CacheRun) : Prop :=
  (∀ pos, ∃ entry, s.cache.cacheMem pos = ⟨0, 0, 0, 0, 0, entry⟩) ∧ s.waiting = none

/-- The way and the address of the access that a step writes to a line, with its length. -/
structure LineWrite where
  way : ℕ
  address : BitVec 32
  len : BitVec 32
  data : Buffer

/-- Update the line. -/
def LineWrite.apply (u : LineWrite) (c : VectorCache) : VectorCache :=
  updateLine cfg c (cfg.getTag u.address) (cfg.getIdx u.address) (cfg.getOffset u.address) u.way u.len
    u.data

/-- The way a missed read without a hit is allocated in. -/
inductive Allocates (c : VectorCache) (idx offset len : BitVec 32) (way : ℕ) : Prop
  | free (inSet : way ≤ cfg.mSets) (unused : lineFree cfg (lookupLine cfg c idx way) offset len = true)
      (first : ∀ v < way, lineFree cfg (lookupLine cfg c idx v) offset len = false)
  | replaced (full : ∀ v ≤ cfg.mSets, lineFree cfg (lookupLine cfg c idx v) offset len = false)
      (selected : ∃ c', replacementSelector cfg c idx cfg.mRepl = some (way, c'))

/-- Where a step writes a line: a write hit, the refill of the way that hit, or an allocation. -/
inductive WritesLine (s : CacheRun) : CacheOp → LineWrite → Prop
  | write {r : Request} {data : Buffer} {reply : Reply} {way : ℕ}
      (searched : r.asi ≠ 0x1c ∧ checkMode cfg s.ccr &&& 0x1 ≠ 0)
      (found : locateLine cfg s.cache (cfg.getTag r.address) (cfg.getIdx r.address)
        (cfg.getOffset r.address) r.len = some way) :
      WritesLine s (.memWrite r data reply) ⟨way, r.address, r.len, data⟩
  | refill {r : Request} {way : ℕ} {address len : BitVec 32} {data ahbData : Buffer} {reply : Reply}
      {cacheableLocal : Bool} (waits : s.waiting = some (r, .refill (some way) address len)) :
      WritesLine s (.endRead data ahbData reply cacheableLocal) ⟨way, address, len, ahbData⟩
  | allocate {r : Request} {way : ℕ} {address len : BitVec 32} {data ahbData : Buffer} {reply : Reply}
      (waits : s.waiting = some (r, .refill none address len))
      (unfrozen : checkMode cfg s.ccr &&& 0x2 ≠ 0)
      (allocates : Allocates cfg s.cache (cfg.getIdx address) (cfg.getOffset address) len way) :
      WritesLine s (.endRead data ahbData reply true) ⟨way, address, len, ahbData⟩

/-- The touch of a step: the set and the way of a read hit, a write hit or a refill. -/
def touched (s : CacheRun) : CacheOp → List (BitVec 32 × ℕ)
  | .startRead r _ _ =>
    match memReadLookup cfg s.ccr s.cache r with
    | .hit way => if s.waiting.isSome then [] else [(cfg.getIdx r.address, way)]
    | _ => []
  | .endRead _ ahbData _ cacheableLocal =>
    match s.waiting with
    | some (_, .refill (some way) address _) => [(cfg.getIdx address, way)]
    | some (_, .refill none address len) =>
      if checkMode cfg s.ccr &&& 0x2 ≠ 0 ∧ cacheableLocal then
        ((allocateLine cfg s.cache (cfg.getTag address) (cfg.getIdx address) (cfg.getOffset address) len
          ahbData).map fun a => (cfg.getIdx address, a.1)).toList
      else []
    | _ => []
  | .memWrite r _ _ =>
    if r.asi ≠ 0x1c ∧ checkMode cfg s.ccr &&& 0x1 ≠ 0 then
      ((locateLine cfg s.cache (cfg.getTag r.address) (cfg.getIdx r.address)
        (cfg.getOffset r.address) r.len).map fun way => (cfg.getIdx r.address, way)).toList
    else []
  | _ => []

/-- Everything a step does to the lines of a cache. -/
inductive Effect (s s' : CacheRun) : CacheOp → Prop
  | none {op : CacheOp} (idle : touched cfg s op = []) (same : s'.cache.cacheMem = s.cache.cacheMem) :
      Effect s s' op
  | hit {r : Request} {data : Buffer} {reply : Reply} {way : ℕ} (free : s.waiting = .none)
      (found : memReadLookup cfg s.ccr s.cache r = .hit way)
      (touch : touched cfg s (.startRead r data reply) = [(cfg.getIdx r.address, way)])
      (aged : s'.cache.cacheMem = (if cfg.mRepl = 1 then
        lruUpdate cfg s.cache (cfg.getIdx r.address) way else s.cache).cacheMem) :
      Effect s s' (.startRead r data reply)
  | line {op : CacheOp} {u : LineWrite} (writes : WritesLine cfg s op u)
      (touch : touched cfg s op = [(cfg.getIdx u.address, u.way)])
      (written : ∃ c, c.cacheMem = s.cache.cacheMem ∧ s'.cache.cacheMem = (u.apply cfg c).cacheMem) :
      Effect s s' op
  | flush {reply : Reply} (flushed : s'.cache = (VectorCache.flush cfg s.cache reply).1) :
      Effect s s' (.flush reply)
  | snoop {snoop : Snoop} (snooped : snoopInvalidate cfg s.ccr s.cache snoop = some s'.cache) :
      Effect s s' (.snoop snoop)
  | tag {address data : BitVec 32}
      (written : VectorCache.writeCacheTag cfg setlock s.cache address data = some s'.cache) :
      Effect s s' (.writeCacheTag address data)

variable {cfg setlock} {s s' : CacheRun} {op : CacheOp}

theorem replacementSelector_cacheMem {c c' : VectorCache} {idx : BitVec 32} {repl way : ℕ}
    (selected : replacementSelector cfg c idx repl = some (way, c')) : c'.cacheMem = c.cacheMem := by
  rcases repl with _ | _ | _ | repl
  · have same : c = c' := congrArg Prod.snd (Option.some.inj selected)
    rw [same]
  · have same : c = c' := congrArg Prod.snd (Option.some.inj selected)
    rw [same]
  · obtain ⟨v, -, eq⟩ := Option.map_eq_some_iff.mp selected
    exact (congrArg (fun r => r.2.cacheMem) eq).symm
  · obtain ⟨v, -, eq⟩ := Option.map_eq_some_iff.mp selected
    exact (congrArg (fun r => r.2.cacheMem) eq).symm

theorem allocates_of_allocateLine {c c' : VectorCache} {tag idx offset len : BitVec 32} {data : Buffer}
    {way : ℕ} (allocated : allocateLine cfg c tag idx offset len data = some (way, c')) :
    Allocates cfg c idx offset len way ∧
      ∃ c₁, c₁.cacheMem = c.cacheMem ∧ c' = updateLine cfg c₁ tag idx offset way len data := by
  unfold allocateLine at allocated
  cases free : (List.range (cfg.mSets + 1)).find? fun way =>
      lineFree cfg (lookupLine cfg c idx way) offset len with
  | some v =>
    rw [free, Option.some.injEq, Prod.mk.injEq] at allocated
    obtain ⟨rfl, rfl⟩ := allocated
    obtain ⟨unused, inSet, first⟩ := List.find?_range_eq_some.mp free
    have := List.mem_range.mp inSet
    refine ⟨.free (by omega) unused fun w hw => ?_, c, rfl, rfl⟩
    simpa using first w hw
  | none =>
    rw [free] at allocated
    obtain ⟨⟨v, c₁⟩, selected, eq⟩ := Option.map_eq_some_iff.mp allocated
    rw [Prod.mk.injEq] at eq
    obtain ⟨rfl, rfl⟩ := eq
    refine ⟨.replaced (fun w hw => ?_) ⟨c₁, selected⟩, c₁, replacementSelector_cacheMem selected, rfl⟩
    simpa using List.find?_range_eq_none.mp free w (by omega)

/-- What a step does to the lines. -/
theorem effect_of_step (next : opStep cfg setlock s op = some s') : Effect cfg setlock s s' op := by
  cases op with
  | startRead r data reply =>
    rw [opStep] at next
    by_cases busy : s.waiting.isSome
    · rw [if_pos busy] at next
      cases next
    · rw [if_neg busy] at next
      cases path : memReadLookup cfg s.ccr s.cache r with
      | hit way =>
        rw [path, Option.some.injEq] at next
        refine .hit (by simpa using busy) path ?_ ?_
        · simp only [touched, path, busy, Bool.false_eq_true, if_false]
        · rw [← next]
          rfl
      | refill cacheHit address len =>
        rw [path, Option.some.injEq] at next
        exact .none (by simp only [touched, path]) (by rw [← next])
      | bypass =>
        rw [path, Option.some.injEq] at next
        exact .none (by simp only [touched, path]) (by rw [← next])
  | endRead data ahbData reply cacheableLocal =>
    rw [opStep] at next
    cases waits : s.waiting with
    | none =>
      rw [waits] at next
      cases next
    | some w =>
      obtain ⟨r, path⟩ := w
      rw [waits] at next
      cases path with
      | hit way => exact .none (by simp only [touched, waits]) (by rw [← Option.some.inj next])
      | bypass => exact .none (by simp only [touched, waits]) (by rw [← Option.some.inj next])
      | refill cacheHit address len =>
        obtain ⟨⟨c, answer⟩, refilled, rfl⟩ := Option.map_eq_some_iff.mp next
        cases cacheHit with
        | some way =>
          simp only [memReadRefill, Option.bind_eq_bind, Option.bind_some, Option.some.injEq,
            Prod.mk.injEq] at refilled
          obtain ⟨rfl, -⟩ := refilled
          exact .line (.refill waits) (by simp only [touched, waits]) ⟨s.cache, rfl, rfl⟩
        | none =>
          simp only [memReadRefill, Option.bind_eq_bind] at refilled
          by_cases allocate : checkMode cfg s.ccr &&& 0x2 ≠ 0 ∧ cacheableLocal
          · rw [if_pos allocate] at refilled
            obtain ⟨⟨way, c', reply'⟩, allocated, eq⟩ := Option.bind_eq_some_iff.mp refilled
            obtain ⟨⟨v, c₂⟩, chosen, eq'⟩ := Option.map_eq_some_iff.mp allocated
            simp only [Prod.mk.injEq] at eq'
            obtain ⟨-, rfl, -⟩ := eq'
            simp only [Option.some.injEq, Prod.mk.injEq] at eq
            obtain ⟨rfl, -⟩ := eq
            obtain ⟨unfrozen, rfl⟩ := allocate
            obtain ⟨allocates, c₁, same, rfl⟩ := allocates_of_allocateLine chosen
            refine .line (.allocate waits unfrozen allocates) ?_ ⟨c₁, same, rfl⟩
            simp only [touched, waits, unfrozen, ne_eq, not_false_eq_true, and_self, if_true, chosen,
              Option.map_some, Option.toList_some]
          · rw [if_neg allocate] at refilled
            refine .none (by simp only [touched, waits, if_neg allocate]) ?_
            by_cases frozen : checkMode cfg s.ccr &&& 0x2 = 0
            · rw [if_pos frozen, Option.bind_some, Option.some.injEq, Prod.mk.injEq] at refilled
              rw [← refilled.1]
            · rw [if_neg frozen, Option.bind_some, Option.some.injEq, Prod.mk.injEq] at refilled
              rw [← refilled.1]
  | memWrite r data reply =>
    rw [opStep, Option.some.injEq] at next
    subst next
    by_cases searched : r.asi ≠ 0x1c ∧ checkMode cfg s.ccr &&& 0x1 ≠ 0
    · rw [if_pos searched]
      cases found : locateLine cfg s.cache (cfg.getTag r.address) (cfg.getIdx r.address)
          (cfg.getOffset r.address) r.len with
      | some way =>
        refine .line (.write searched found) ?_ ⟨s.cache, rfl, ?_⟩
        · rw [touched, if_pos searched, found]
          rfl
        · simp only [memWriteUpdate, found]
          rfl
      | none =>
        refine .none ?_ (by simp only [memWriteUpdate, found])
        rw [touched, if_pos searched, found]
        rfl
    · exact .none (by rw [touched, if_neg searched]) (by rw [if_neg searched])
  | flush reply =>
    rw [opStep, Option.some.injEq] at next
    exact .flush (by rw [← next])
  | snoop snoop =>
    obtain ⟨c, snooped, rfl⟩ := Option.map_eq_some_iff.mp next
    exact .snoop snooped
  | writeCcr ccr =>
    rw [opStep, Option.some.injEq] at next
    exact .none rfl (by rw [← next])
  | writeCacheTag address data =>
    obtain ⟨c, written, rfl⟩ := Option.map_eq_some_iff.mp next
    exact .tag written

theorem waiting_of_endRead {data ahbData : Buffer} {reply : Reply} {cacheableLocal : Bool}
    (next : opStep cfg setlock s (.endRead data ahbData reply cacheableLocal) = some s') :
    s'.waiting = none := by
  rw [opStep] at next
  cases waits : s.waiting with
  | none =>
    rw [waits] at next
    cases next
  | some w =>
    obtain ⟨r, path⟩ := w
    rw [waits] at next
    cases path with
    | refill cacheHit address len =>
      obtain ⟨h, -, rfl⟩ := Option.map_eq_some_iff.mp next
      rfl
    | _ => rw [← Option.some.inj next]

/-- A read begins to wait with what its search found, and nothing else changes what a waiting read
remembers. -/
theorem waiting_of_step (next : opStep cfg setlock s op = some s') :
    (s'.waiting = s.waiting ∨ s'.waiting = none) ∨ ∃ r data reply, op = .startRead r data reply ∧
      s'.waiting = some (r, memReadLookup cfg s.ccr s.cache r) ∧ s'.cache = s.cache := by
  cases op with
  | startRead r data reply =>
    rw [opStep] at next
    by_cases busy : s.waiting.isSome
    · rw [if_pos busy] at next
      cases next
    · rw [if_neg busy] at next
      cases path : memReadLookup cfg s.ccr s.cache r with
      | hit way =>
        rw [path, Option.some.injEq] at next
        exact .inl (.inl (by rw [← next]))
      | _ =>
        rw [path, Option.some.injEq] at next
        exact .inr ⟨r, data, reply, rfl, by rw [← next, path], by rw [← next]⟩
  | endRead data ahbData reply cacheableLocal => exact .inl (.inr (waiting_of_endRead next))
  | memWrite r data reply =>
    rw [opStep, Option.some.injEq] at next
    exact .inl (.inl (by rw [← next]))
  | flush reply =>
    rw [opStep, Option.some.injEq] at next
    exact .inl (.inl (by rw [← next]))
  | snoop snoop =>
    obtain ⟨c, -, rfl⟩ := Option.map_eq_some_iff.mp next
    exact .inl (.inl rfl)
  | writeCcr ccr =>
    rw [opStep, Option.some.injEq] at next
    exact .inl (.inl (by rw [← next]))
  | writeCacheTag address data =>
    obtain ⟨c, -, rfl⟩ := Option.map_eq_some_iff.mp next
    exact .inl (.inl rfl)

theorem locateLine_of_hit {ccr : BitVec 32} {c : VectorCache} {r : Request} {way : ℕ}
    (path : memReadLookup cfg ccr c r = .hit way) :
    locateLine cfg c (cfg.getTag r.address) (cfg.getIdx r.address) (cfg.getOffset r.address) r.len =
      some way := by
  rcases memReadLookup_cases cfg ccr c r with bypass | ⟨-, ⟨v, found, hit⟩ | ⟨-, refill⟩⟩
  · rw [bypass] at path
    cases path
  · rw [hit] at path
    cases path
    exact found
  · rw [refill] at path
    cases path

theorem locateLine_of_refill {ccr : BitVec 32} {c : VectorCache} {r : Request} {cacheHit : Option ℕ}
    {address len : BitVec 32} (path : memReadLookup cfg ccr c r = .refill cacheHit address len) :
    cacheHit = locateLine cfg c (cfg.getTag r.address) (cfg.getIdx r.address)
      (cfg.getOffset r.address) r.len := by
  rcases memReadLookup_cases cfg ccr c r with bypass | ⟨-, ⟨v, found, hit⟩ | ⟨-, refill⟩⟩
  · rw [bypass] at path
    cases path
  · rw [hit] at path
    cases path
  · rw [refill] at path
    injection path with same
    exact same.symm

theorem lineAddress_of_refill {ccr : BitVec 32} {c : VectorCache} {r : Request} {cacheHit : Option ℕ}
    {address len : BitVec 32} (linefetch : cfg.newLinefetchEn = true)
    (path : memReadLookup cfg ccr c r = .refill cacheHit address len) :
    address = cfg.lineAddress r.address := by
  rcases memReadLookup_cases cfg ccr c r with bypass | ⟨-, ⟨v, found, hit⟩ | ⟨-, refill⟩⟩
  · rw [bypass] at path
    cases path
  · rw [hit] at path
    cases path
  · rw [refill] at path
    injection path with _ same
    rw [← same, refillTransfer, if_pos linefetch]

section Interface

variable {σ : Type} (m : MemIf σ) {c c' : VectorCache} {ccr : BitVec 32} {t t' : σ} {r : Request}
  {data ahbData : Buffer} {reply : Reply}

/-- A read through the memory interface is its two halves, without a step of another party between
them. -/
theorem run_memRead {answer : Buffer × Reply}
    (read : memRead cfg m ccr c t r data reply ahbData = some (c', t', answer)) :
    ∃ ops, run (opStep cfg setlock) ⟨c, ccr, none⟩ (.startRead r data reply :: ops) =
      some ⟨c', ccr, none⟩ := by
  unfold memRead at read
  cases path : memReadLookup cfg ccr c r with
  | hit way =>
    rw [path, Option.some.injEq, Prod.mk.injEq] at read
    refine ⟨[], ?_⟩
    rw [run_cons, opStep, if_neg (by simp), path, ← read.1]
    rfl
  | refill cacheHit address len =>
    rw [path] at read
    obtain ⟨h, refilled, eq⟩ := Option.map_eq_some_iff.mp read
    rw [Prod.mk.injEq] at eq
    let u := m.memRead t { r with address := address, len := len } ahbData reply
    refine ⟨[.endRead data u.data u.reply u.isCacheable], ?_⟩
    rw [run_cons, opStep, if_neg (by simp), path, Option.bind_some, run_cons, opStep]
    dsimp only
    rw [refilled, ← eq.1]
    rfl
  | bypass =>
    rw [path, Option.some.injEq, Prod.mk.injEq] at read
    refine ⟨[.endRead data data reply false], ?_⟩
    rw [run_cons, opStep, if_neg (by simp), path, Option.bind_some, run_cons, opStep, ← read.1]
    rfl

/-- A write through the memory interface is one step. -/
theorem opStep_memWrite (s : CacheRun) :
    opStep cfg setlock s (.memWrite r data reply) =
      some { s with cache := (memWrite cfg m s.ccr s.cache t r data reply).1 } := by
  rw [opStep]
  unfold memWrite
  split_ifs <;> rfl

end Interface

end Socrocket.MmuCache
