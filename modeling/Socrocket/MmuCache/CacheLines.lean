/- Socrocket/MmuCache/CacheLines
   digest: What every cache operation does to the lines, one specification for each operation. -/

import Socrocket.MmuCache.VectorCache

set_option autoImplicit false
set_option relaxedAutoImplicit false

namespace Socrocket.MmuCache

open Socrocket.Base.BitField
open Socrocket.Base.ByteMemory

/-- The part of a line that decides what the cache answers. -/
structure LineCore where
  valid : BitVec 32
  atag : BitVec 32
  lock : BitVec 32
  entry : Buffer

/-- A line without its replacement history. -/
def CacheLine.core (line : CacheLine) : LineCore :=
  ⟨line.valid, line.atag, line.lock, line.entry⟩

namespace VectorCache

variable (cfg : Config)

theorem position_inj {idx idx' : BitVec 32} {way way' : ℕ} (h : way ≤ cfg.mSets)
    (h' : way' ≤ cfg.mSets) (same : position cfg idx way = position cfg idx' way') :
    idx = idx' ∧ way = way' := by
  unfold position at same
  have quotient : idx.toNat = idx'.toNat := by
    have left : (idx.toNat * (cfg.mSets + 1) + way) / (cfg.mSets + 1) = idx.toNat := by
      rw [Nat.mul_comm, Nat.mul_add_div (by omega), Nat.div_eq_of_lt (by omega), Nat.add_zero]
    have right : (idx'.toNat * (cfg.mSets + 1) + way') / (cfg.mSets + 1) = idx'.toNat := by
      rw [Nat.mul_comm, Nat.mul_add_div (by omega), Nat.div_eq_of_lt (by omega), Nat.add_zero]
    rw [← left, same, right]
  refine ⟨BitVec.eq_of_toNat_eq quotient, ?_⟩
  rw [quotient] at same
  omega

theorem position_lt_size {idx : BitVec 32} {way : ℕ} (hidx : idx.toNat < cfg.mNumberOfVectors)
    (hway : way ≤ cfg.mSets) : position cfg idx way < size cfg := by
  unfold position size
  rw [← cfg.mSets_succ]
  calc idx.toNat * (cfg.mSets + 1) + way < idx.toNat * (cfg.mSets + 1) + (cfg.mSets + 1) := by omega
    _ = (idx.toNat + 1) * (cfg.mSets + 1) := by ring
    _ ≤ cfg.mNumberOfVectors * (cfg.mSets + 1) := Nat.mul_le_mul_right _ hidx

theorem size_le : size cfg ≤ 2 ^ 18 := by
  have := cfg.setsize_range
  have := cfg.sets_range
  unfold size
  calc cfg.mNumberOfVectors * cfg.sets ≤ 2 ^ 16 * 4 := by
        refine Nat.mul_le_mul ?_ (by omega)
        exact (Nat.div_le_self ..).trans (by omega)
    _ = 2 ^ 18 := by norm_num

section ModifyLine

variable {cfg} {c : VectorCache} {idx i : BitVec 32} {way w : ℕ} {f : CacheLine → CacheLine}

@[simp] theorem lookupLine_modifyLine_same :
    lookupLine cfg (modifyLine cfg c idx way f) idx way = f (lookupLine cfg c idx way) := by
  simp [lookupLine, modifyLine]

theorem lookupLine_modifyLine (hway : way ≤ cfg.mSets) (hw : w ≤ cfg.mSets) :
    lookupLine cfg (modifyLine cfg c idx way f) i w =
      if i = idx ∧ w = way then f (lookupLine cfg c idx way) else lookupLine cfg c i w := by
  by_cases here : i = idx ∧ w = way
  · rw [if_pos here, here.1, here.2, lookupLine_modifyLine_same]
  · rw [if_neg here]
    have apart : position cfg i w ≠ position cfg idx way := fun same =>
      here (position_inj cfg hw hway same)
    simp [lookupLine, modifyLine, Function.update_of_ne apart]

theorem view_modifyLine {α : Type} (view : CacheLine → α) (keep : ∀ line, view (f line) = view line)
    (pos : ℕ) : view ((modifyLine cfg c idx way f).cacheMem pos) = view (c.cacheMem pos) := by
  by_cases here : pos = position cfg idx way
  · subst pos
    simp [modifyLine, lookupLine, keep]
  · simp [modifyLine, Function.update_of_ne here]

theorem view_foldl_modifyLine {α : Type} (view : CacheLine → α) (g : ℕ → CacheLine → CacheLine)
    (keep : ∀ way line, view (g way line) = view line) (ways : List ℕ) (pos : ℕ) :
    view ((ways.foldl (fun c way => modifyLine cfg c idx way (g way)) c).cacheMem pos) =
      view (c.cacheMem pos) := by
  induction ways generalizing c with
  | nil => rfl
  | cons way ways ih => rw [List.foldl_cons, ih, view_modifyLine view (keep way)]

theorem lookupLine_foldl_modifyLine (g : ℕ → CacheLine → CacheLine) (ways : List ℕ)
    (inSet : ∀ v ∈ ways, v ≤ cfg.mSets) (distinct : ways.Nodup) (hw : w ≤ cfg.mSets) :
    lookupLine cfg (ways.foldl (fun c way => modifyLine cfg c idx way (g way)) c) i w =
      if i = idx ∧ w ∈ ways then g w (lookupLine cfg c i w) else lookupLine cfg c i w := by
  induction ways generalizing c with
  | nil => simp
  | cons v ways ih =>
    obtain ⟨fresh, rest⟩ := List.nodup_cons.mp distinct
    have hv := inSet v (List.mem_cons_self ..)
    rw [List.foldl_cons, ih (fun u hu => inSet u (List.mem_cons_of_mem _ hu)) rest,
      lookupLine_modifyLine hv hw]
    by_cases here : w = v
    · subst w
      by_cases set : i = idx <;> simp [fresh, set]
    · simp [here]

end ModifyLine

variable {cfg} (c : VectorCache) (idx i : BitVec 32) (way w : ℕ)

theorem core_lrrUpdate :
    (lookupLine cfg (lrrUpdate cfg c idx way) i w).core = (lookupLine cfg c i w).core :=
  view_foldl_modifyLine CacheLine.core
    (fun v line => { line with lrr := if v = way then 1 else 0 }) (fun _ _ => rfl) _ _

theorem core_lruUpdate :
    (lookupLine cfg (lruUpdate cfg c idx way) i w).core = (lookupLine cfg c i w).core := by
  refine view_foldl_modifyLine CacheLine.core _ (fun v line => ?_) _ _
  split_ifs <;> rfl

theorem lrr_lruUpdate :
    (lookupLine cfg (lruUpdate cfg c idx way) i w).lrr = (lookupLine cfg c i w).lrr := by
  refine view_foldl_modifyLine CacheLine.lrr _ (fun v line => ?_) _ _
  split_ifs <;> rfl

variable {w} in
theorem lrr_lrrUpdate (two : cfg.mSets = 1) (hw : w ≤ cfg.mSets) :
    (lookupLine cfg (lrrUpdate cfg c idx way) i w).lrr =
      if i = idx then (if w = way then 1 else 0) else (lookupLine cfg c i w).lrr := by
  have zero : 0 ≤ cfg.mSets := Nat.zero_le _
  have one : 1 ≤ cfg.mSets := by omega
  have unfold_range : List.range 2 = [0, 1] := rfl
  simp only [lrrUpdate, unfold_range, List.foldl_cons, List.foldl_nil,
    lookupLine_modifyLine one hw, lookupLine_modifyLine zero hw]
  by_cases hi : i = idx
  · subst i
    have cases_w : w = 0 ∨ w = 1 := by omega
    rcases cases_w with rfl | rfl <;> simp
  · simp [hi]

variable {c idx i way w}

section UpdateLine

variable {tag offset len : BitVec 32} {data : Buffer}

/-- The line an update leaves behind. -/
def refilled (cfg : Config) (line : LineCore) (tag offset len : BitVec 32) (data : Buffer) :
    LineCore where
  valid :=
    if cfg.newLinefetchEn then 0x1
    else (if line.atag = tag then line.valid else 0) ||| offset2valid cfg offset len
  atag := tag
  lock := line.lock
  entry := copyTo line.entry offset.toNat data len.toNat

private theorem core_modifyLine {f : CacheLine → CacheLine} {F : LineCore → LineCore}
    (hf : ∀ line, (f line).core = F line.core) (hway : way ≤ cfg.mSets) (hw : w ≤ cfg.mSets) :
    (lookupLine cfg (modifyLine cfg c idx way f) i w).core =
      if i = idx ∧ w = way then F (lookupLine cfg c idx way).core
      else (lookupLine cfg c i w).core := by
  rw [lookupLine_modifyLine hway hw, apply_ite CacheLine.core, hf]

variable (c idx i tag offset len data)

private theorem core_fillEntry (hway : way ≤ cfg.mSets) (hw : w ≤ cfg.mSets) :
    (lookupLine cfg (fillEntry cfg c idx offset way len data) i w).core =
      if i = idx ∧ w = way then
        { (lookupLine cfg c idx way).core with
          entry := copyTo (lookupLine cfg c idx way).entry offset.toNat data len.toNat }
      else (lookupLine cfg c i w).core := by
  simp only [fillEntry, words_add_bytes]
  exact core_modifyLine (F := fun line =>
    { line with entry := copyTo line.entry offset.toNat data len.toNat }) (fun _ => rfl) hway hw

private theorem core_takeOver (hway : way ≤ cfg.mSets) (hw : w ≤ cfg.mSets) :
    (lookupLine cfg (takeOver cfg c tag idx way) i w).core =
      if i = idx ∧ w = way then
        { (lookupLine cfg c idx way).core with
          atag := tag
          valid := if (lookupLine cfg c idx way).atag = tag then (lookupLine cfg c idx way).valid
            else 0 }
      else (lookupLine cfg c i w).core := by
  have mark (c : VectorCache) (j : BitVec 32) (v : ℕ) :
      (lookupLine cfg (if cfg.mRepl = 2 then lrrUpdate cfg c idx way else c) j v).core =
        (lookupLine cfg c j v).core := by
    split_ifs
    · exact core_lrrUpdate c idx j way v
    · rfl
  unfold takeOver
  by_cases same : (lookupLine cfg c idx way).atag = tag
  · rw [if_neg (not_not.mpr same), if_pos same]
    split_ifs with here
    · obtain ⟨rfl, rfl⟩ := here
      subst tag
      rfl
    · rfl
  · rw [if_pos same, if_neg same]
    dsimp only
    rw [core_modifyLine (F := fun line => { line with valid := 0 }) (fun _ => rfl) hway hw, mark,
      mark, core_modifyLine (F := fun line => { line with atag := tag }) (fun _ => rfl) hway hway,
      core_modifyLine (F := fun line => { line with atag := tag }) (fun _ => rfl) hway hw]
    by_cases here : i = idx ∧ w = way <;> simp [here]

private theorem core_markValid (hway : way ≤ cfg.mSets) (hw : w ≤ cfg.mSets) :
    (lookupLine cfg (markValid cfg c idx offset way len) i w).core =
      if i = idx ∧ w = way then
        { (lookupLine cfg c idx way).core with
          valid := if cfg.newLinefetchEn then 0x1
            else (lookupLine cfg c idx way).core.valid ||| offset2valid cfg offset len }
      else (lookupLine cfg c i w).core :=
  core_modifyLine (F := fun line => { line with valid :=
    if cfg.newLinefetchEn then 0x1 else line.valid ||| offset2valid cfg offset len })
    (fun _ => rfl) hway hw

theorem core_updateLine (hway : way ≤ cfg.mSets) (hw : w ≤ cfg.mSets) :
    (lookupLine cfg (updateLine cfg c tag idx offset way len data) i w).core =
      if i = idx ∧ w = way then refilled cfg (lookupLine cfg c idx way).core tag offset len data
      else (lookupLine cfg c i w).core := by
  have age (c : VectorCache) :
      (lookupLine cfg (if cfg.mRepl = 1 then lruUpdate cfg c idx way else c) i w).core =
        (lookupLine cfg c i w).core := by
    split_ifs
    · exact core_lruUpdate c idx i way w
    · rfl
  simp only [updateLine, age]
  rw [core_markValid _ _ _ _ _ hway hw]
  by_cases here : i = idx ∧ w = way
  · have filled := core_fillEntry c idx idx offset len data hway hway
    have tagged := core_takeOver (fillEntry cfg c idx offset way len data) idx idx tag hway hway
    simp only [and_self, if_true] at filled tagged
    have atag : (lookupLine cfg (fillEntry cfg c idx offset way len data) idx way).atag =
        (lookupLine cfg c idx way).atag := congrArg LineCore.atag filled
    have valid : (lookupLine cfg (fillEntry cfg c idx offset way len data) idx way).valid =
        (lookupLine cfg c idx way).valid := congrArg LineCore.valid filled
    rw [if_pos here, if_pos here, tagged, filled, atag, valid]
    rfl
  · rw [if_neg here, if_neg here, core_takeOver _ _ _ _ hway hw, if_neg here,
      core_fillEntry _ _ _ _ _ _ hway hw, if_neg here]

theorem view_marked {α : Type} (view : CacheLine → α)
    (keep : ∀ line valid atag lrr, view { line with valid := valid, atag := atag, lrr := lrr } =
      view line)
    (pos : ℕ) :
    view ((markValid cfg (takeOver cfg (fillEntry cfg c idx offset way len data) tag idx way) idx offset
      way len).cacheMem pos) = view ((fillEntry cfg c idx offset way len data).cacheMem pos) := by
  have replaced (c : VectorCache) :
      view ((if cfg.mRepl = 2 then lrrUpdate cfg c idx way else c).cacheMem pos) =
        view (c.cacheMem pos) := by
    by_cases lrr : cfg.mRepl = 2
    · rw [if_pos lrr]
      exact view_foldl_modifyLine view _ (fun v line => keep line line.valid line.atag _) _ pos
    · rw [if_neg lrr]
  refine (view_modifyLine view (fun line => keep line _ line.atag line.lrr) pos).trans ?_
  unfold takeOver
  generalize fillEntry cfg c idx offset way len data = filled
  by_cases other : (lookupLine cfg filled idx way).atag ≠ tag
  · rw [if_pos other]
    refine (view_modifyLine view (fun line => keep line 0 line.atag line.lrr) pos).trans ?_
    refine (replaced _).trans ?_
    exact view_modifyLine view (fun line => keep line line.valid tag line.lrr) pos
  · rw [if_neg other]

/-- Behind its copy of the data an update writes no lock and no data, at any position. -/
theorem view_updateLine {α : Type} (view : CacheLine → α)
    (keep : ∀ line valid atag lrr lru, view
      { line with valid := valid, atag := atag, lrr := lrr, lru := lru } = view line) (pos : ℕ) :
    view ((updateLine cfg c tag idx offset way len data).cacheMem pos) =
      view ((fillEntry cfg c idx offset way len data).cacheMem pos) := by
  have marked : view ((markValid cfg (takeOver cfg
    (fillEntry cfg c idx offset way len data) tag idx way)
      idx offset way len).cacheMem pos) = _ :=
    view_marked c idx tag offset len data view
      (fun line valid atag lrr => keep line valid atag lrr line.lru) pos
  simp only [updateLine]
  by_cases lru : cfg.mRepl = 1
  · rw [if_pos lru]
    refine (view_foldl_modifyLine view _ (fun v line => ?_) _ pos).trans marked
    split_ifs
    · exact keep line line.valid line.atag line.lrr _
    · exact keep line line.valid line.atag line.lrr _
    · rfl
  · rw [if_neg lru]
    exact marked

theorem lrr_updateLine (hw : w ≤ cfg.mSets) :
    (lookupLine cfg (updateLine cfg c tag idx offset way len data) i w).lrr =
      if cfg.mRepl = 2 ∧ i = idx ∧ (lookupLine cfg c idx way).atag ≠ tag then
        (if w = way then 1 else 0)
      else (lookupLine cfg c i w).lrr := by
  have age (c : VectorCache) :
      (lookupLine cfg (if cfg.mRepl = 1 then lruUpdate cfg c idx way else c) i w).lrr =
        (lookupLine cfg c i w).lrr := by
    split_ifs
    · exact lrr_lruUpdate c idx i way w
    · rfl
  have fill (j : BitVec 32) (v : ℕ) :
      (lookupLine cfg (fillEntry cfg c idx offset way len data) j v).lrr =
        (lookupLine cfg c j v).lrr := by
    simp only [fillEntry]
    exact view_modifyLine CacheLine.lrr (by intro line; rfl) _
  have mark (c : VectorCache) :
      (lookupLine cfg (markValid cfg c idx offset way len) i w).lrr = (lookupLine cfg c i w).lrr := by
    exact view_modifyLine CacheLine.lrr (by intro line; rfl) _
  have atag : (lookupLine cfg (fillEntry cfg c idx offset way len data) idx way).atag =
      (lookupLine cfg c idx way).atag := by
    simp only [fillEntry]
    exact view_modifyLine CacheLine.atag (by intro line; rfl) _
  simp only [updateLine, age, mark, takeOver, atag]
  by_cases same : (lookupLine cfg c idx way).atag = tag
  · simp only [same, ne_eq, not_true_eq_false, if_false, and_false, fill]
  · simp only [same, ne_eq, not_false_eq_true, if_true, and_true]
    have clear (c : VectorCache) : (lookupLine cfg
        (modifyLine cfg c idx way fun line => { line with valid := 0 }) i w).lrr =
          (lookupLine cfg c i w).lrr := by
      exact view_modifyLine CacheLine.lrr (by intro line; rfl) _
    have tagged (c : VectorCache) : (lookupLine cfg
        (modifyLine cfg c idx way fun line => { line with atag := tag }) i w).lrr =
          (lookupLine cfg c i w).lrr := by
      exact view_modifyLine CacheLine.lrr (by intro line; rfl) _
    rw [clear]
    by_cases lrr : cfg.mRepl = 2
    · simp only [lrr, if_true, true_and]
      rw [lrr_lrrUpdate _ _ _ _ (cfg.mRepl_two lrr) hw, tagged, fill]
    · simp only [lrr, if_false, false_and]
      rw [tagged, fill]

end UpdateLine

section LocateLine

variable {tag offset len : BitVec 32}

theorem locateLine_some (found : locateLine cfg c tag idx offset len = some way) :
    way ≤ cfg.mSets ∧ (lookupLine cfg c idx way).atag = tag ∧
      lineHits cfg (lookupLine cfg c idx way) offset len := by
  have holds := List.find?_some found
  have range := List.mem_of_find?_eq_some found
  rw [Bool.and_eq_true, beq_iff_eq] at holds
  have := List.mem_range.mp range
  exact ⟨by omega, holds.1, holds.2⟩

theorem locateLine_none (missed : locateLine cfg c tag idx offset len = none)
    (hway : way ≤ cfg.mSets) (same : (lookupLine cfg c idx way).atag = tag) :
    lineHits cfg (lookupLine cfg c idx way) offset len = false := by
  have no := List.find?_eq_none.mp missed way (List.mem_range.mpr (by omega))
  rw [Bool.and_eq_true, beq_iff_eq] at no
  by_contra hit
  exact no ⟨same, by simpa using hit⟩

end LocateLine

theorem core_flush (reply : Reply) (hidx : i.toNat < cfg.mNumberOfVectors) (hw : w ≤ cfg.mSets) :
    (lookupLine cfg (flush cfg c reply).1 i w).core =
      { (lookupLine cfg c i w).core with valid := 0 } := by
  have inside := position_lt_size cfg hidx hw
  simp only [flush, lookupLine, inside, if_true]
  rfl

theorem lrr_flush (reply : Reply) (i : BitVec 32) (w : ℕ) :
    (lookupLine cfg (flush cfg c reply).1 i w).lrr = (lookupLine cfg c i w).lrr := by
  simp only [flush, lookupLine]
  split_ifs <;> rfl

section Snoop

variable {address bound : BitVec 32}

/-- The valid bits a snooped word leaves in a line of its tag. -/
def snooped (cfg : Config) (line : LineCore) (address : BitVec 32) : LineCore :=
  { line with valid :=
      if cfg.newLinefetchEn then 0
      else line.valid &&& ~~~(offset2valid cfg (cfg.getOffset address) 4) }

theorem shift_step (address : BitVec 32) (j : ℕ) :
    address + 4 + BitVec.ofNat 32 (4 * j) = address + BitVec.ofNat 32 (4 * (j + 1)) := by
  rw [Nat.mul_add, BitVec.ofNat_add, BitVec.add_assoc, BitVec.add_comm 4]
  rfl

@[simp] theorem first_step (address : BitVec 32) :
    address + BitVec.ofNat 32 (4 * 0) = address :=
  BitVec.add_zero address

section View

variable {α : Type} (view : CacheLine → α)
  (blind : ∀ line valid, view { line with valid := valid } = view line)

include blind

private theorem view_snoopWay (v pos : ℕ) :
    view ((snoopWay cfg address c v).cacheMem pos) = view (c.cacheMem pos) := by
  unfold snoopWay
  by_cases hit : (lookupLine cfg c (cfg.getIdx address) v).atag = cfg.getTag address
  · rw [if_pos hit]
    exact view_modifyLine view (fun line => blind line _) pos
  · rw [if_neg hit]

theorem view_snoopWord (pos : ℕ) :
    view ((snoopWord cfg c address).cacheMem pos) = view (c.cacheMem pos) := by
  unfold snoopWord
  generalize List.range (cfg.mSets + 1) = ways
  induction ways generalizing c with
  | nil => rfl
  | cons v ways ih => rw [List.foldl_cons, ih, view_snoopWay view blind]

end View

variable (c i address)

private theorem core_snoopWay {v : ℕ} (hv : v ≤ cfg.mSets) (hw : w ≤ cfg.mSets) :
    (lookupLine cfg (snoopWay cfg address c v) i w).core =
      if i = cfg.getIdx address ∧ w = v ∧ (lookupLine cfg c i w).atag = cfg.getTag address then
        snooped cfg (lookupLine cfg c i w).core address
      else (lookupLine cfg c i w).core := by
  unfold snoopWay
  by_cases hit : (lookupLine cfg c (cfg.getIdx address) v).atag = cfg.getTag address
  · rw [if_pos hit, core_modifyLine (F := fun line => snooped cfg line address) (fun _ => rfl) hv hw]
    by_cases here : i = cfg.getIdx address ∧ w = v
    · obtain ⟨rfl, rfl⟩ := here
      simp [hit]
    · have off : ¬ (i = cfg.getIdx address ∧ w = v ∧
          (lookupLine cfg c i w).atag = cfg.getTag address) := fun h => here ⟨h.1, h.2.1⟩
      rw [if_neg here, if_neg off]
  · rw [if_neg hit, if_neg]
    rintro ⟨rfl, rfl, same⟩
    exact hit same

private theorem core_snoop_fold (ways : List ℕ) (inSet : ∀ v ∈ ways, v ≤ cfg.mSets)
    (distinct : ways.Nodup) (hw : w ≤ cfg.mSets) :
    (lookupLine cfg (ways.foldl (snoopWay cfg address) c) i w).core =
      if i = cfg.getIdx address ∧ w ∈ ways ∧ (lookupLine cfg c i w).atag = cfg.getTag address then
        snooped cfg (lookupLine cfg c i w).core address
      else (lookupLine cfg c i w).core := by
  induction ways generalizing c with
  | nil => simp
  | cons v ways ih =>
    obtain ⟨fresh, rest⟩ := List.nodup_cons.mp distinct
    have first := core_snoopWay c i address
      (inSet v (List.mem_cons_self ..)) hw
    have atag : (lookupLine cfg (snoopWay cfg address c v) i w).atag = (lookupLine cfg c i w).atag :=
      view_snoopWay CacheLine.atag (fun _ _ => rfl) v _
    rw [List.foldl_cons, ih _ (fun u hu => inSet u (List.mem_cons_of_mem _ hu)) rest, atag, first]
    by_cases here : w = v
    · subst w
      simp [fresh]
    · simp [here]

theorem core_snoopWord (hw : w ≤ cfg.mSets) :
    (lookupLine cfg (snoopWord cfg c address) i w).core =
      if i = cfg.getIdx address ∧ (lookupLine cfg c i w).atag = cfg.getTag address then
        snooped cfg (lookupLine cfg c i w).core address
      else (lookupLine cfg c i w).core := by
  have range : w ∈ List.range (cfg.mSets + 1) := List.mem_range.mpr (by omega)
  have fold := core_snoop_fold c i address (List.range (cfg.mSets + 1))
    (fun v hv => by have := List.mem_range.mp hv; omega) List.nodup_range hw
  simp only [range, true_and] at fold
  exact fold

theorem atag_snoopWord (w : ℕ) :
    (lookupLine cfg (snoopWord cfg c address) i w).atag = (lookupLine cfg c i w).atag :=
  view_snoopWord CacheLine.atag (fun _ _ => rfl) _

theorem lrr_snoopWord (w : ℕ) :
    (lookupLine cfg (snoopWord cfg c address) i w).lrr = (lookupLine cfg c i w).lrr :=
  view_snoopWord CacheLine.lrr (fun _ _ => rfl) _

/-- The valid bits a snooped word leaves: with line fetches none in a line of its tag, otherwise those
outside its mask. -/
theorem bit_snoopWord {k : ℕ} (hw : w ≤ cfg.mSets) :
    (lookupLine cfg (snoopWord cfg c address) i w).valid.getLsbD k = true ↔
      (lookupLine cfg c i w).valid.getLsbD k = true ∧
        ¬ (i = cfg.getIdx address ∧ (lookupLine cfg c i w).atag = cfg.getTag address ∧
          (cfg.newLinefetchEn = false →
            (offset2valid cfg (cfg.getOffset address) 4).getLsbD k = true)) := by
  have valid := congrArg LineCore.valid (core_snoopWord c i address hw)
  change (lookupLine ..).valid = _ at valid
  rw [valid]
  by_cases here : i = cfg.getIdx address ∧ (lookupLine cfg c i w).atag = cfg.getTag address
  · rw [if_pos here]
    obtain ⟨rfl, same⟩ := here
    cases mode : cfg.newLinefetchEn with
    | true => simp [snooped, mode, same]
    | false =>
      simp only [snooped, mode, same, CacheLine.core, Bool.false_eq_true, if_false, true_and,
        forall_const, BitVec.getLsbD_and, BitVec.getLsbD_not, Bool.and_eq_true, Bool.not_eq_true',
        decide_eq_true_eq, Bool.not_eq_true]
      constructor
      · rintro ⟨bit, -, clear⟩
        exact ⟨bit, clear⟩
      · rintro ⟨bit, clear⟩
        exact ⟨bit, BitVec.lt_of_getLsbD bit, clear⟩
  · rw [if_neg here]
    constructor
    · intro bit
      exact ⟨bit, fun stepped => here ⟨stepped.1, stepped.2.1⟩⟩
    · rintro ⟨bit, -⟩
      exact bit

/-- Snoop `n` words from an address on. -/
def snoopWords (cfg : Config) : ℕ → VectorCache → BitVec 32 → VectorCache
  | 0, c, _ => c
  | n + 1, c, address => snoopWords cfg n (snoopWord cfg c address) (address + 4)

theorem snoopLoop_eq {n fuel : ℕ} (hfuel : n < fuel)
    (inside : ∀ j < n, address.toNat + 4 * j < bound.toNat)
    (outside : bound.toNat ≤ address.toNat + 4 * n) (room : address.toNat + 4 * n < 2 ^ 32) :
    snoopLoop cfg fuel c address bound = some (snoopWords cfg n c address) := by
  induction n generalizing c address fuel with
  | zero =>
    obtain ⟨fuel, rfl⟩ := Nat.exists_eq_succ_of_ne_zero (by omega : fuel ≠ 0)
    have stop : ¬ address < bound := by rw [BitVec.lt_def]; omega
    rw [snoopLoop, if_neg stop, snoopWords]
  | succ n ih =>
    obtain ⟨fuel, rfl⟩ := Nat.exists_eq_succ_of_ne_zero (by omega : fuel ≠ 0)
    have go : address < bound := by
      have := inside 0 (by omega)
      rw [BitVec.lt_def]
      omega
    have next : (address + 4).toNat = address.toNat + 4 := by
      rw [BitVec.toNat_add]
      exact Nat.mod_eq_of_lt (by simp; omega)
    rw [snoopLoop, if_pos go, snoopWords]
    apply ih _ _ (by omega)
    · intro j hj
      have := inside (j + 1) (by omega)
      omega
    · omega
    · omega

/-- A snoop whose loop does not wrap visits every fourth address from the first on. -/
theorem snoopInvalidate_eq {ccr base : BitVec 32} {len : ℕ}
    (on : checkMode cfg ccr &&& 0x3 ≠ 0) (room : base.toNat + 4 * ((len + 3) / 4) < 2 ^ 32) :
    snoopInvalidate cfg ccr c ⟨base, BitVec.ofNat 32 len⟩ =
      some (snoopWords cfg ((len + 3) / 4) c base) := by
  have bound : (base + BitVec.ofNat 32 len).toNat = base.toNat + len := by
    rw [BitVec.toNat_add, BitVec.toNat_ofNat, Nat.mod_eq_of_lt (by omega : len < 2 ^ 32),
      Nat.mod_eq_of_lt (by omega)]
  rw [snoopInvalidate, if_pos on]
  dsimp only
  apply snoopLoop_eq
  · omega
  · intro j hj
    rw [bound]
    omega
  · rw [bound]
    omega
  · omega

theorem lrr_snoopWords (n w : ℕ) :
    (lookupLine cfg (snoopWords cfg n c address) i w).lrr = (lookupLine cfg c i w).lrr := by
  induction n generalizing c address with
  | zero => rfl
  | succ n ih => rw [snoopWords, ih, lrr_snoopWord]

theorem core_snoopWords (linefetch : cfg.newLinefetchEn = true) (n : ℕ) (hw : w ≤ cfg.mSets) :
    (lookupLine cfg (snoopWords cfg n c address) i w).core =
      if ∃ j < n, i = cfg.getIdx (address + BitVec.ofNat 32 (4 * j)) ∧
          (lookupLine cfg c i w).atag = cfg.getTag (address + BitVec.ofNat 32 (4 * j)) then
        { (lookupLine cfg c i w).core with valid := 0 }
      else (lookupLine cfg c i w).core := by
  induction n generalizing c address with
  | zero => simp [snoopWords]
  | succ n ih =>
    rw [snoopWords, ih, atag_snoopWord, core_snoopWord c i address hw]
    simp only [shift_step]
    by_cases tail : ∃ j < n, i = cfg.getIdx (address + BitVec.ofNat 32 (4 * (j + 1))) ∧
        (lookupLine cfg c i w).atag = cfg.getTag (address + BitVec.ofNat 32 (4 * (j + 1)))
    · rw [if_pos tail, if_pos (Nat.exists_lt_succ_left.mpr (.inr tail))]
      split_ifs <;> rfl
    · rw [if_neg tail]
      by_cases here : i = cfg.getIdx address ∧ (lookupLine cfg c i w).atag = cfg.getTag address
      · rw [if_pos here, if_pos (Nat.exists_lt_succ_left.mpr (.inl (by rw [first_step]; exact here))),
          snooped, if_pos linefetch]
      · rw [if_neg here, if_neg]
        intro some_word
        rcases Nat.exists_lt_succ_left.mp some_word with now | later
        · rw [first_step] at now
          exact here now
        · exact tail later

theorem rest_snoopWords (n pos : ℕ) :
    ∃ valid, (snoopWords cfg n c address).cacheMem pos = { c.cacheMem pos with valid := valid } := by
  have blank : ({ (snoopWords cfg n c address).cacheMem pos with valid := 0 } : CacheLine) =
      { c.cacheMem pos with valid := 0 } := by
    induction n generalizing c address with
    | zero => rfl
    | succ n ih =>
      rw [snoopWords, ih]
      exact view_snoopWord (fun line => ({ line with valid := 0 } : CacheLine)) (fun _ _ => rfl) pos
  refine ⟨((snoopWords cfg n c address).cacheMem pos).valid, ?_⟩
  have restored := congrArg (fun line : CacheLine =>
    ({ line with valid := ((snoopWords cfg n c address).cacheMem pos).valid } : CacheLine)) blank
  exact restored

theorem snoopInvalidate_some {ccr : BitVec 32} {snoop : Snoop} {c' : VectorCache}
    (ended : snoopInvalidate cfg ccr c snoop = some c') :
    ∃ n, c' = snoopWords cfg n c snoop.address := by
  have loop (fuel : ℕ) (address : BitVec 32) (d : VectorCache)
      (done : snoopLoop cfg fuel d address (snoop.address + snoop.length) = some c') :
      ∃ n, c' = snoopWords cfg n d address := by
    induction fuel generalizing d address with
    | zero => cases done
    | succ fuel ih =>
      rw [snoopLoop] at done
      split_ifs at done with go
      · obtain ⟨n, eq⟩ := ih _ _ done
        exact ⟨n + 1, eq⟩
      · exact ⟨0, (Option.some.inj done).symm⟩
  unfold snoopInvalidate at ended
  split_ifs at ended
  · exact loop _ _ _ ended
  · exact ⟨0, (Option.some.inj ended).symm⟩

end Snoop

/-- An access that searches the cache. -/
def Searched (cfg : Config) (ccr : BitVec 32) (r : Request) : Prop :=
  r.asi ≠ 0x1c ∧ checkMode cfg ccr &&& 0x1 ≠ 0

instance (ccr : BitVec 32) (r : Request) : Decidable (Searched cfg ccr r) :=
  inferInstanceAs (Decidable (_ ∧ _))

/-- The first half of a read bypasses the cache, hits, or issues the transfer of a miss. -/
theorem memReadLookup_cases (cfg : Config) (ccr : BitVec 32) (c : VectorCache) (r : Request) :
    memReadLookup cfg ccr c r = .bypass ∨
      ((r.isDbg = false ∧ Searched cfg ccr r) ∧
        ((∃ way, locateLine cfg c (cfg.getTag r.address) (cfg.getIdx r.address)
            (cfg.getOffset r.address) r.len = some way ∧ memReadLookup cfg ccr c r = .hit way) ∨
          ((locateLine cfg c (cfg.getTag r.address) (cfg.getIdx r.address)
              (cfg.getOffset r.address) r.len = none ∨ ¬ r.asi > 3) ∧
            memReadLookup cfg ccr c r = .refill
              (locateLine cfg c (cfg.getTag r.address) (cfg.getIdx r.address)
                (cfg.getOffset r.address) r.len)
              (refillTransfer cfg ccr r.address r.len).1
              (refillTransfer cfg ccr r.address r.len).2))) := by
  unfold memReadLookup
  by_cases searched : r.isDbg = false ∧ r.asi ≠ 0x1c ∧ checkMode cfg ccr &&& 0x1 ≠ 0
  · rw [if_pos searched]
    refine .inr ⟨searched, ?_⟩
    cases found : locateLine cfg c (cfg.getTag r.address) (cfg.getIdx r.address)
        (cfg.getOffset r.address) r.len with
    | none => exact .inr ⟨.inl rfl, rfl⟩
    | some way =>
      by_cases cached : r.asi > 3
      · exact .inl ⟨way, rfl, by simp only [cached, if_true]⟩
      · exact .inr ⟨.inr cached, by simp only [cached, if_false]⟩
  · rw [if_neg searched]
    exact .inl rfl

end VectorCache

end Socrocket.MmuCache
