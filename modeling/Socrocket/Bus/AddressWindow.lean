/- Socrocket/Bus/AddressWindow
   digest: The address window of an AHB device, gathered over its bars by their addresses. -/

import Mathlib.Order.Bounds.Basic
import Socrocket.Base.BitField

set_option autoImplicit false
set_option relaxedAutoImplicit false

namespace Socrocket.Bus.AHBDevice

open Socrocket.Base.BitField

/-- The generics of a bar that its address range depends on. -/
structure Bar where
  htype : BitVec 32
  haddr : BitVec 32
  hmask : BitVec 32
deriving DecidableEq

/-- A device has up to four bars. -/
abbrev Bars := Fin 4 → Bar

/-- Bars have numerals. -/
scoped instance fourBars : NeZero 4 := ⟨Nat.succ_ne_zero 3⟩

section Functions

variable (bars : Bars) (bar : Fin 4)

def getAhbBarType : BitVec 32 := (bars bar).htype &&& 0xf

/-- The 12 bit most significant part of the address. -/
def getAhbBarBase : BitVec 32 := (bars bar).haddr &&& 0xfff

/-- The 12 bit address mask. -/
def getAhbBarMask : BitVec 32 := (bars bar).hmask &&& 0xfff

/-- The base address of a bar. -/
def getAhbBarAddr : BitVec 32 := (getAhbBarBase bars bar &&& getAhbBarMask bars bar) <<< 20

/-- The size of a bar in bytes. -/
def getAhbBarSize : BitVec 32 := ((~~~getAhbBarMask bars bar &&& 0xfff) + 1) <<< 20

/-- The lowest of the bars. A bar behind the first one counts when its address is not zero. -/
def getAhbBaseAddr : BitVec 64 :=
  let addr := [1, 2, 3].foldl (fun addr bar =>
    if getAhbBarAddr bars bar ≠ 0 then
      if getAhbBarAddr bars bar < addr then getAhbBarAddr bars bar else addr
    else addr) (getAhbBarAddr bars 0)
  addr.setWidth 64

/-- The highest address, the size that goes with it and the highest address before. -/
structure Highest where
  addr : BitVec 32
  size : BitVec 32
  old : BitVec 32

/-- One bar behind the first one. The size is taken from its address. -/
def raise (h : Highest) (bar : Fin 4) : Highest :=
  if getAhbBarAddr bars bar ≠ 0 then
    let addr := if h.addr < getAhbBarAddr bars bar then getAhbBarAddr bars bar else h.addr
    if addr ≠ h.old then ⟨addr, getAhbBarAddr bars bar, addr⟩ else { h with addr := addr }
  else h

/-- The total size of the device. The sum is one of 32 bits, the difference one of 64. -/
def getAhbSize : BitVec 64 :=
  let h := [1, 2, 3].foldl (raise bars)
    ⟨getAhbBarAddr bars 0, getAhbBarSize bars 0, getAhbBarAddr bars 0⟩
  (h.addr + h.size).setWidth 64 - getAhbBaseAddr bars

end Functions

/-- A bar is unused when it has no type. -/
def Used (bars : Bars) (bar : Fin 4) : Prop := getAhbBarType bars bar ≠ 0

/-- The first address of a bar and the one behind its last. -/
def start (bars : Bars) (bar : Fin 4) : ℕ :=
  (getAhbBarBase bars bar &&& getAhbBarMask bars bar).toNat * 2 ^ 20

def stop (bars : Bars) (bar : Fin 4) : ℕ :=
  start bars bar + (2 ^ 12 - (getAhbBarMask bars bar).toNat) * 2 ^ 20

/-- The window from the base on is that of the used bars. -/
structure WindowExact (bars : Bars) : Prop where
  base : IsLeast {a | ∃ i, Used bars i ∧ a = start bars i} (getAhbBaseAddr bars).toNat
  top : IsGreatest {a | ∃ i, Used bars i ∧ a = stop bars i}
    ((getAhbBaseAddr bars).toNat + (getAhbSize bars).toNat)

/-- A bar that the functions look at. -/
def Considered (bars : Bars) (bar : Fin 4) : Prop := bar = 0 ∨ start bars bar ≠ 0

/-- A used bar is the lowest of those that are looked at, and it is one of them. -/
structure LowFound (bars : Bars) : Prop where
  zero : ∀ i, Used bars i → start bars i = 0 → start bars 0 = 0
  least : ∃ i, Used bars i ∧ ∀ k, Considered bars k → start bars i ≤ start bars k

/-- Where the window ends when no bar starts above the first one, and otherwise. -/
def HighFound (bars : Bars) : Prop :=
  (∀ k, Considered bars k → start bars k ≤ start bars 0) ∧ stop bars 0 < 2 ^ 32 ∧
      IsGreatest {a | ∃ i, Used bars i ∧ a = stop bars i} (stop bars 0) ∨
    ∃ m, Considered bars m ∧ start bars 0 < start bars m ∧
      (∀ k, Considered bars k → start bars k ≤ start bars m) ∧
      IsGreatest {a | ∃ i, Used bars i ∧ a = stop bars i} (2 * start bars m % 2 ^ 32)

variable {bars : Bars}

theorem getAhbBarMask_lt (bars : Bars) (i : Fin 4) : (getAhbBarMask bars i).toNat < 2 ^ 12 := by
  rw [getAhbBarMask, BitVec.toNat_and]
  exact Nat.lt_of_le_of_lt Nat.and_le_right (by decide)

theorem stop_le (bars : Bars) (i : Fin 4) : stop bars i ≤ 2 ^ 32 := by
  have mask := getAhbBarMask_lt bars i
  have below : (getAhbBarBase bars i &&& getAhbBarMask bars i).toNat ≤
      (getAhbBarMask bars i).toNat := by
    rw [BitVec.toNat_and]
    exact Nat.and_le_right
  rw [stop, start]
  omega

theorem start_lt_stop (bars : Bars) (i : Fin 4) : start bars i < stop bars i := by
  have mask := getAhbBarMask_lt bars i
  rw [stop]
  omega

theorem toNat_getAhbBarAddr (bars : Bars) (i : Fin 4) :
    (getAhbBarAddr bars i).toNat = start bars i := by
  have mask := getAhbBarMask_lt bars i
  have small : (getAhbBarBase bars i &&& getAhbBarMask bars i).toNat < 2 ^ 12 := by
    rw [BitVec.toNat_and]
    exact Nat.lt_of_le_of_lt Nat.and_le_right mask
  exact toNat_shiftLeft_of_lt (by decide) small

theorem toNat_getAhbBarSize (bars : Bars) (i : Fin 4) :
    (getAhbBarSize bars i).toNat = (stop bars i - start bars i) % 2 ^ 32 := by
  have mask := getAhbBarMask_lt bars i
  have pages : ((~~~getAhbBarMask bars i &&& 0xfff) + 1).toNat =
      2 ^ 12 - (getAhbBarMask bars i).toNat := by
    have low : (~~~getAhbBarMask bars i &&& 0xfff).toNat =
        (~~~getAhbBarMask bars i).toNat % 2 ^ 12 :=
      toNat_and_lowMask (k := 12) (~~~getAhbBarMask bars i) (by decide)
    rw [BitVec.toNat_add, low, BitVec.toNat_not]
    change (_ + 1) % 2 ^ 32 = _
    omega
  rw [getAhbBarSize, BitVec.toNat_shiftLeft, Nat.shiftLeft_eq, pages, stop, Nat.add_sub_cancel_left]

theorem considered_iff (i : Fin 4) : getAhbBarAddr bars i ≠ 0 ↔ start bars i ≠ 0 := by
  rw [← toNat_getAhbBarAddr, ne_eq, ne_eq, ← BitVec.toNat_inj]
  rfl

private theorem lowest_spec (l : List (Fin 4)) (addr : BitVec 32) :
    let r := (l.foldl (fun addr bar =>
      if getAhbBarAddr bars bar ≠ 0 then
        if getAhbBarAddr bars bar < addr then getAhbBarAddr bars bar else addr
      else addr) addr).toNat
    (r = addr.toNat ∨ ∃ i ∈ l, start bars i ≠ 0 ∧ r = start bars i) ∧ r ≤ addr.toNat ∧
      ∀ i ∈ l, start bars i ≠ 0 → r ≤ start bars i := by
  induction l generalizing addr with
  | nil => exact ⟨.inl rfl, le_rfl, nofun⟩
  | cons bar l ih =>
    rw [List.foldl_cons]
    simp only [considered_iff] at ih ⊢
    have less : getAhbBarAddr bars bar < addr ↔ start bars bar < addr.toNat := by
      rw [BitVec.lt_def, toNat_getAhbBarAddr]
    by_cases counts : start bars bar ≠ 0
    · by_cases lower : start bars bar < addr.toNat
      · rw [if_pos counts, if_pos (less.mpr lower)]
        obtain ⟨attained, least, all⟩ := ih (getAhbBarAddr bars bar)
        rw [toNat_getAhbBarAddr] at attained least
        refine ⟨.inr ?_, le_trans least lower.le, List.forall_mem_cons.mpr ⟨fun _ => least, all⟩⟩
        rcases attained with same | ⟨i, member, counts', same⟩
        · exact ⟨bar, List.mem_cons_self .., counts, same⟩
        · exact ⟨i, List.mem_cons_of_mem _ member, counts', same⟩
      · rw [if_pos counts, if_neg (mt less.mp lower)]
        obtain ⟨attained, least, all⟩ := ih addr
        refine ⟨attained.imp_right ?_, least,
          List.forall_mem_cons.mpr ⟨fun _ => le_trans least (Nat.not_lt.mp lower), all⟩⟩
        rintro ⟨i, member, counts', same⟩
        exact ⟨i, List.mem_cons_of_mem _ member, counts', same⟩
    · rw [if_neg counts]
      obtain ⟨attained, least, all⟩ := ih addr
      refine ⟨attained.imp_right ?_, least,
        List.forall_mem_cons.mpr ⟨fun other => absurd other counts, all⟩⟩
      rintro ⟨i, member, counts', same⟩
      exact ⟨i, List.mem_cons_of_mem _ member, counts', same⟩

private theorem raise_cases (h : Highest) (bar : Fin 4) (known : h.old = h.addr) :
    (raise bars h bar).old = (raise bars h bar).addr ∧
      (raise bars h bar = h ∧ (start bars bar ≠ 0 → start bars bar ≤ h.addr.toNat) ∨
        h.addr.toNat < start bars bar ∧ (raise bars h bar).addr = getAhbBarAddr bars bar ∧
          (raise bars h bar).size = getAhbBarAddr bars bar) := by
  have more : h.addr < getAhbBarAddr bars bar ↔ h.addr.toNat < start bars bar := by
    rw [BitVec.lt_def, toNat_getAhbBarAddr]
  unfold raise
  by_cases counts : getAhbBarAddr bars bar ≠ 0
  · by_cases higher : h.addr < getAhbBarAddr bars bar
    · have changed : getAhbBarAddr bars bar ≠ h.old := by
        rw [known]
        exact fun same => BitVec.lt_irrefl _ (same ▸ higher)
      simp only [if_pos counts, if_pos higher, if_pos changed]
      exact ⟨trivial, .inr ⟨more.mp higher, trivial, trivial⟩⟩
    · have same : ¬h.addr ≠ h.old := not_not.mpr known.symm
      simp only [if_pos counts, if_neg higher, if_neg same]
      exact ⟨known, .inl ⟨trivial, fun _ => Nat.not_lt.mp (mt more.mpr higher)⟩⟩
  · simp only [if_neg counts]
    exact ⟨known, .inl ⟨trivial, fun other => absurd ((considered_iff bar).mpr other) counts⟩⟩

private theorem highest_spec (bars : Bars) (l : List (Fin 4)) (h : Highest) (known : h.old = h.addr) :
    (∀ i ∈ l, start bars i ≠ 0 → start bars i ≤ h.addr.toNat) ∧ l.foldl (raise bars) h = h ∨
      ∃ m ∈ l, h.addr.toNat < start bars m ∧
        (∀ i ∈ l, start bars i ≠ 0 → start bars i ≤ start bars m) ∧
        (l.foldl (raise bars) h).addr = getAhbBarAddr bars m ∧
        (l.foldl (raise bars) h).size = getAhbBarAddr bars m := by
  induction l generalizing h with
  | nil => exact .inl ⟨nofun, rfl⟩
  | cons bar l ih =>
    rw [List.foldl_cons]
    obtain ⟨known', ⟨same, below⟩ | ⟨higher, addr, size⟩⟩ := raise_cases h bar known
    · rw [same]
      rcases ih h known with ⟨all, kept⟩ | ⟨m, member, above, all, last⟩
      · exact .inl ⟨List.forall_mem_cons.mpr ⟨below, all⟩, kept⟩
      · refine .inr ⟨m, List.mem_cons_of_mem _ member, above, List.forall_mem_cons.mpr ⟨?_, all⟩, last⟩
        exact fun counts => le_trans (below counts) above.le
    · have value : (raise bars h bar).addr.toNat = start bars bar := by
        rw [addr, toNat_getAhbBarAddr]
      rcases ih _ known' with ⟨all, kept⟩ | ⟨m, member, above, all, last⟩
      · rw [value] at all
        rw [kept]
        exact .inr ⟨bar, List.mem_cons_self .., higher, List.forall_mem_cons.mpr ⟨fun _ => le_rfl, all⟩,
          addr, size⟩
      · rw [value] at above
        exact .inr ⟨m, List.mem_cons_of_mem _ member, lt_trans higher above,
          List.forall_mem_cons.mpr ⟨fun _ => above.le, all⟩, last⟩

private theorem considered_le {k : Fin 4} {b : ℕ} (considered : Considered bars k)
    (first : start bars 0 ≤ b)
    (others : ∀ i ∈ ([1, 2, 3] : List (Fin 4)), start bars i ≠ 0 → start bars i ≤ b) :
    start bars k ≤ b := by
  have rest (i : Fin 4) : i = 0 ∨ i ∈ ([1, 2, 3] : List (Fin 4)) := by
    revert i
    decide
  rcases considered with rfl | counts
  · exact first
  · rcases rest k with rfl | member
    · exact first
    · exact others k member counts

theorem getAhbBaseAddr_spec (bars : Bars) :
    (∃ i, Considered bars i ∧ (getAhbBaseAddr bars).toNat = start bars i) ∧
      ∀ i, Considered bars i → (getAhbBaseAddr bars).toNat ≤ start bars i := by
  obtain ⟨attained, least, all⟩ := lowest_spec [1, 2, 3] (getAhbBarAddr bars 0)
  have wide (addr : BitVec 32) : (addr.setWidth 64).toNat = addr.toNat := by
    rw [BitVec.toNat_setWidth]
    exact Nat.mod_eq_of_lt (addr.isLt.trans (by decide))
  have rest (i : Fin 4) : i = 0 ∨ i ∈ ([1, 2, 3] : List (Fin 4)) := by
    revert i
    decide
  unfold getAhbBaseAddr
  rw [wide]
  rw [toNat_getAhbBarAddr] at attained least
  constructor
  · rcases attained with first | ⟨i, -, counts, same⟩
    · exact ⟨0, .inl rfl, first⟩
    · exact ⟨i, .inr counts, same⟩
  · rintro i (rfl | counts)
    · exact least
    · rcases rest i with rfl | member
      · exact least
      · exact all i member counts

/-- The end of the window as the functions compute it: the first bar when none starts above it, and
twice the highest address otherwise. -/
theorem getAhbSize_spec (bars : Bars) : ∃ sum : ℕ, sum < 2 ^ 32 ∧
    (getAhbSize bars).toNat = (2 ^ 64 - (getAhbBaseAddr bars).toNat + sum) % 2 ^ 64 ∧
    ((∀ k, Considered bars k → start bars k ≤ start bars 0) ∧ sum = stop bars 0 % 2 ^ 32 ∨
      ∃ m, Considered bars m ∧ start bars 0 < start bars m ∧
        (∀ k, Considered bars k → start bars k ≤ start bars m) ∧ sum = 2 * start bars m % 2 ^ 32) := by
  let first : Highest := ⟨getAhbBarAddr bars 0, getAhbBarSize bars 0, getAhbBarAddr bars 0⟩
  let h := [1, 2, 3].foldl (raise bars) first
  refine ⟨(h.addr + h.size).toNat, (h.addr + h.size).isLt, ?_, ?_⟩
  · have wide : ((h.addr + h.size).setWidth 64).toNat = (h.addr + h.size).toNat := by
      rw [BitVec.toNat_setWidth]
      exact Nat.mod_eq_of_lt ((h.addr + h.size).isLt.trans (by decide))
    rw [← wide]
    exact BitVec.toNat_sub _ _
  · have zero : first.addr.toNat = start bars 0 := toNat_getAhbBarAddr bars 0
    have spec := highest_spec bars [1, 2, 3] first rfl
    rw [zero] at spec
    rcases spec with ⟨all, kept⟩ | ⟨m, -, above, all, addr, size⟩
    · refine .inl ⟨fun k considered => considered_le considered le_rfl all, ?_⟩
      · have spread := start_lt_stop bars 0
        change (([1, 2, 3].foldl (raise bars) first).addr +
          ([1, 2, 3].foldl (raise bars) first).size).toNat = _
        rw [kept, BitVec.toNat_add, zero]
        change (start bars 0 + (getAhbBarSize bars 0).toNat) % 2 ^ 32 = _
        rw [toNat_getAhbBarSize]
        omega
    · have counts : start bars m ≠ 0 := by omega
      refine .inr ⟨m, .inr counts, above, fun k considered => considered_le considered above.le all, ?_⟩
      · change (([1, 2, 3].foldl (raise bars) first).addr +
          ([1, 2, 3].foldl (raise bars) first).size).toNat = _
        rw [addr, size, BitVec.toNat_add, toNat_getAhbBarAddr]
        omega

theorem isLeast_base_iff (bars : Bars) :
    IsLeast {a | ∃ i, Used bars i ∧ a = start bars i} (getAhbBaseAddr bars).toNat ↔ LowFound bars := by
  obtain ⟨⟨k, considered, attained⟩, least⟩ := getAhbBaseAddr_spec bars
  generalize (getAhbBaseAddr bars).toNat = r at attained least ⊢
  constructor
  · rintro ⟨⟨i, used, same⟩, lower⟩
    refine ⟨fun j usedj zero => ?_, i, used, fun j considered => same.ge.trans (least j considered)⟩
    have none : r ≤ start bars j := lower ⟨j, usedj, rfl⟩
    rcases considered with rfl | counts
    · omega
    · omega
  · rintro ⟨zero, i, used, below⟩
    have reached : r = start bars i := by
      refine Nat.le_antisymm ?_ ((below k considered).trans attained.ge)
      by_cases counts : start bars i = 0
      · have first := least 0 (.inl rfl)
        rw [zero i used counts] at first
        exact counts ▸ first
      · exact least i (.inr counts)
    refine ⟨⟨i, used, reached⟩, ?_⟩
    rintro a ⟨j, usedj, rfl⟩
    by_cases counts : start bars j = 0
    · have first := least 0 (.inl rfl)
      rw [zero j usedj counts] at first
      exact counts ▸ first
    · exact least j (.inr counts)

theorem isGreatest_top_iff
    (base : IsLeast {a | ∃ i, Used bars i ∧ a = start bars i} (getAhbBaseAddr bars).toNat) :
    IsGreatest {a | ∃ i, Used bars i ∧ a = stop bars i}
      ((getAhbBaseAddr bars).toNat + (getAhbSize bars).toNat) ↔ HighFound bars := by
  obtain ⟨sum, small, size, cases⟩ := getAhbSize_spec bars
  obtain ⟨⟨i, -, first⟩, lower⟩ := base
  generalize (getAhbBaseAddr bars).toNat = r at size first lower ⊢
  have word : r < 2 ^ 32 :=
    lt_of_le_of_lt first.le (lt_of_lt_of_le (start_lt_stop bars i) (stop_le bars i))
  -- A difference that wraps is beyond every end of a bar.
  have unwrapped : IsGreatest {a | ∃ i, Used bars i ∧ a = stop bars i}
      (r + (getAhbSize bars).toNat) ↔
      IsGreatest {a | ∃ i, Used bars i ∧ a = stop bars i} sum := by
    by_cases above : r ≤ sum
    · have whole : r + (getAhbSize bars).toNat = sum := by omega
      rw [whole]
    · refine iff_of_false ?_ ?_
      · rintro ⟨⟨j, -, same⟩, -⟩
        have bound := stop_le bars j
        omega
      · rintro ⟨⟨j, used, same⟩, -⟩
        have begins := lower ⟨j, used, rfl⟩
        have spread := start_lt_stop bars j
        omega
  rw [unwrapped]
  rcases cases with ⟨all, rfl⟩ | ⟨m, considered, above, all, rfl⟩
  · constructor
    · intro top
      obtain ⟨j, -, same⟩ := top.1
      have spread := start_lt_stop bars j
      have bound := stop_le bars 0
      have fits : stop bars 0 < 2 ^ 32 := by
        by_contra full
        have whole : stop bars 0 = 2 ^ 32 := by omega
        rw [whole] at same
        omega
      rw [Nat.mod_eq_of_lt fits] at top
      exact .inl ⟨all, fits, top⟩
    · rintro (⟨-, fits, top⟩ | ⟨m, considered, above, -⟩)
      · rw [Nat.mod_eq_of_lt fits]
        exact top
      · exact absurd (all m considered) (Nat.not_le.mpr above)
  · constructor
    · exact fun top => .inr ⟨m, considered, above, all, top⟩
    · rintro (⟨none, -⟩ | ⟨n, considered', -, all', top⟩)
      · exact absurd (none m considered) (Nat.not_le.mpr above)
      · rw [Nat.le_antisymm (all' m considered) (all n considered')]
        exact top

/-- The base and the size give the window of the used bars exactly when the functions find its
lowest bar by its address, and its end in one of the two ways. -/
theorem window_exact_iff (bars : Bars) : WindowExact bars ↔ LowFound bars ∧ HighFound bars := by
  have low := isLeast_base_iff bars
  constructor
  · rintro ⟨base, top⟩
    exact ⟨low.mp base, (isGreatest_top_iff base).mp top⟩
  · rintro ⟨found, high⟩
    have base := low.mpr found
    exact ⟨base, (isGreatest_top_iff base).mpr high⟩

/-- Two ranges of a megabyte, a gigabyte apart. -/
def twoRanges : Bars := fun i =>
  if i = 0 then ⟨2, 0x400, 0xfff⟩ else if i = 1 then ⟨2, 0x800, 0xfff⟩ else ⟨0, 0, 0⟩

/-- The address of the second range is taken for its size, and the sum wraps to zero. -/
theorem window_twoRanges : ¬ ∀ bars : Bars, WindowExact bars := by
  intro claim
  obtain ⟨i, -, ends⟩ := (claim twoRanges).top.1
  revert i
  decide

end Socrocket.Bus.AHBDevice
