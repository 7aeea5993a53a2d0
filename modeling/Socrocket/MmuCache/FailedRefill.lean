/- Socrocket/MmuCache/FailedRefill
   digest: When a read that fails behind the cache leaves the lines of the cache as they are. -/

import Socrocket.MmuCache.BusRefill

set_option autoImplicit false
set_option relaxedAutoImplicit false

namespace Socrocket.MmuCache

open Socrocket.Base.ByteMemory
open VectorCache

variable (mcfg : MmuConfig) (bus : Request → Completion) (cfg : Config) (ccr : BitVec 32)
  (c : VectorCache) (s : MmuSystem) (r : Request) (reply : Reply)

/-- The read fails: in its translation, or with a response of the bus other than OK. -/
def ReadFails (q : Request) : Prop :=
  TranslationFails mcfg s q reply ∨
    (¬ TranslationFails mcfg s q reply ∧ (bus (physical mcfg s q reply)).ok = false)

/-- When the read that the cache issues for a request fails, the lines stay as they are. -/
def FailureKeepsLines (data : Buffer) : Prop :=
  ∀ q, issued cfg ccr c r = some q → ReadFails mcfg bus s reply q →
    LeavesLines mcfg bus cfg ccr c s r data reply

/-- A failed refill is harmless when it is no forced miss on a line that answers the access, and is
not allocated: the cache is frozen, the translation failed, or the area or the bus says that the
data is not cacheable. -/
def FailureHarmless : Prop :=
  ∀ hit address len, memReadLookup cfg ccr c r = .refill hit address len →
    ReadFails mcfg bus s reply { r with address := address, len := len } →
      hit = none ∧ (checkMode cfg ccr &&& 0x2 = 0 ∨
        TranslationFails mcfg s { r with address := address, len := len } reply ∨
        ¬ AreaCached mcfg (physical mcfg s { r with address := address, len := len } reply).address ∨
        (bus (physical mcfg s { r with address := address, len := len } reply)).extension = false)

variable {mcfg bus cfg ccr c s r reply}

/-- What keeps an unanswered refill from being allocated. -/
theorem not_allocated_iff {q : Request} :
    ¬ (checkMode cfg ccr &&& 0x2 ≠ 0 ∧ AnsweredCacheable mcfg bus s q reply) ↔
      checkMode cfg ccr &&& 0x2 = 0 ∨ TranslationFails mcfg s q reply ∨
        ¬ AreaCached mcfg (physical mcfg s q reply).address ∨
        (bus (physical mcfg s q reply)).extension = false := by
  unfold AnsweredCacheable
  rw [← Bool.not_eq_true]
  tauto

/-- A failed refill never poisons the cache exactly when it is harmless. -/
theorem failed_refill_iff (mcfg : MmuConfig) (bus : Request → Completion) (cfg : Config)
    (ccr : BitVec 32) (c : VectorCache) (s : MmuSystem) (r : Request) (data : Buffer) (reply : Reply) :
    FailureKeepsLines mcfg bus cfg ccr c s r reply data ↔
      FailureHarmless mcfg bus cfg ccr c s r reply := by
  constructor
  · intro keeps hit address len path fails
    have reads : issued cfg ccr c r = some { r with address := address, len := len } := by
      rw [issued, path]
    have idle := leavesLines_iff.mp (keeps _ reads fails) hit address len path
    exact ⟨idle.1, not_allocated_iff.mp idle.2⟩
  · intro harmless q reads fails
    refine leavesLines_iff.mpr fun hit address len path => ?_
    rw [issued, path, Option.some.injEq] at reads
    subst reads
    obtain ⟨missed, closed⟩ := harmless hit address len path fails
    exact ⟨missed, not_allocated_iff.mpr closed⟩

/-- A unit that is switched off. -/
def idleSystem : MmuSystem := ⟨{ enabledMmu with controlReg := 0 }, ⟨fun _ => 0, [], []⟩⟩

/-- A bus on which every read ends with an error. -/
def brokenBus (_ : Request) : Completion := ⟨fun _ => 0, false, false⟩

/-- A cache that holds the line of `0x40000000`. -/
def oneLineCache : VectorCache :=
  modifyLine smallDataCache resetCache 0 0 fun line => { line with valid := 1, atag := 0x100000 }

/-- A load with a forced miss from a line that the cache holds: the bus answers with an error, and the
line is overwritten all the same. -/
theorem forced_miss_overwrites_line :
    ¬ FailureKeepsLines smallMmu brokenBus smallDataCache 0xc oneLineCache idleSystem
      ⟨0x40000000, 0x1, 4, false, false⟩ ⟨0, false⟩ fun _ => 0 := by
  intro keeps
  have path : memReadLookup smallDataCache 0xc oneLineCache ⟨0x40000000, 0x1, 4, false, false⟩ =
      .refill (some 0) 0x40000000 16 := by decide +kernel
  have translates (q : Request) : ¬ TranslationFails smallMmu idleSystem q ⟨0, false⟩ :=
    fun fails => fails.1 rfl
  have leaves := keeps _ (by rw [issued, path]) (.inr ⟨translates _, rfl⟩)
  cases (leavesLines_iff.mp leaves _ _ _ path).1

end Socrocket.MmuCache
