/- Socrocket/Base/Run
   digest: Runs of a partial step function and the induction rules for what they keep. -/

import Mathlib.Data.List.Basic

set_option autoImplicit false
set_option relaxedAutoImplicit false

namespace Socrocket.Base.Run

variable {σ ι : Type} (step : σ → ι → Option σ)

/-- Take the steps of a list in order. A run that meets a disabled step does not exist. -/
def run : σ → List ι → Option σ
  | s, [] => some s
  | s, i :: is => (step s i).bind fun t => run t is

/-- Every step of the run meets a condition on the step and the state before it. -/
def Along (ok : σ → ι → Prop) : σ → List ι → Prop
  | _, [] => True
  | s, i :: is => ok s i ∧ ∀ t, step s i = some t → Along ok t is

/-- What the steps of a run put out, in order. -/
def outputs {ω : Type} (out : σ → ι → List ω) : σ → List ι → List ω
  | _, [] => []
  | s, i :: is => out s i ++ match step s i with
    | some t => outputs out t is
    | none => []

/-- A step that also appends what it puts out. -/
def recording {ω : Type} (out : σ → ι → List ω) (s : σ × List ω) (i : ι) : Option (σ × List ω) :=
  (step s.1 i).map fun t => (t, s.2 ++ out s.1 i)

variable {step} {ok : σ → ι → Prop} {P : σ → Prop}

@[simp] theorem run_nil (s : σ) : run step s [] = some s := rfl

theorem run_cons (s : σ) (i : ι) (is : List ι) :
    run step s (i :: is) = (step s i).bind fun t => run step t is := rfl

/-- A condition that can be checked can be checked along a run. -/
instance decidableAlong [∀ s i, Decidable (ok s i)] : ∀ s is, Decidable (Along step ok s is)
  | _, [] => isTrue trivial
  | s, i :: is =>
    have _rest : Decidable (∀ t, step s i = some t → Along step ok t is) :=
      match step s i with
      | none => isTrue nofun
      | some u =>
        match decidableAlong u is with
        | isTrue holds => isTrue fun _ same => Option.some.inj same ▸ holds
        | isFalse fails => isFalse fun all => fails (all u rfl)
    inferInstanceAs (Decidable (_ ∧ _))

theorem along_of_forall {good : ι → Prop} (s : σ) {is : List ι} (h : ∀ i ∈ is, good i) :
    Along step (fun _ i => good i) s is := by
  induction is generalizing s with
  | nil => trivial
  | cons i is ih =>
    exact ⟨h i (List.mem_cons_self ..), fun t _ =>
      ih t fun j hj => h j (List.mem_cons_of_mem _ hj)⟩

theorem Along.and {ok' : σ → ι → Prop} {s : σ} {is : List ι} (h : Along step ok s is)
    (h' : Along step ok' s is) : Along step (fun s i => ok s i ∧ ok' s i) s is := by
  induction is generalizing s with
  | nil => trivial
  | cons i is ih => exact ⟨⟨h.1, h'.1⟩, fun t next => ih (h.2 t next) (h'.2 t next)⟩

theorem run_preserves (keep : ∀ s i t, P s → ok s i → step s i = some t → P t) {s t : σ}
    {is : List ι} (start : P s) (admitted : Along step ok s is) (reached : run step s is = some t) :
    P t := by
  induction is generalizing s with
  | nil =>
    rw [run_nil, Option.some.injEq] at reached
    exact reached ▸ start
  | cons i is ih =>
    rw [run_cons] at reached
    cases next : step s i with
    | none => simp [next] at reached
    | some u =>
      rw [next, Option.bind_some] at reached
      exact ih (keep s i u start admitted.1 next) (admitted.2 u next) reached

theorem run_outputs {ω : Type} {out : σ → ι → List ω} {Q : σ → List ω → Prop}
    (keep : ∀ s i t past, Q s past → ok s i → step s i = some t → Q t (past ++ out s i)) {s t : σ}
    {is : List ι} {past : List ω} (start : Q s past) (admitted : Along step ok s is)
    (reached : run step s is = some t) : Q t (past ++ outputs step out s is) := by
  induction is generalizing s past with
  | nil =>
    rw [run_nil, Option.some.injEq] at reached
    rw [outputs, List.append_nil]
    exact reached ▸ start
  | cons i is ih =>
    rw [run_cons] at reached
    cases next : step s i with
    | none => simp [next] at reached
    | some u =>
      rw [next, Option.bind_some] at reached
      have rest := ih (keep s i u past start admitted.1 next) (admitted.2 u next) reached
      rw [outputs, next, ← List.append_assoc]
      exact rest

/-- What every step keeps, every run keeps. -/
theorem run_always (keep : ∀ s i t, P s → step s i = some t → P t) {s t : σ} {is : List ι}
    (start : P s) (reached : run step s is = some t) : P t :=
  run_preserves (fun s i t before _ next => keep s i t before next) start
    (along_of_forall s fun _ _ => trivial) reached

theorem outputs_always {ω : Type} {out : σ → ι → List ω} {Q : σ → List ω → Prop}
    (keep : ∀ s i t past, Q s past → step s i = some t → Q t (past ++ out s i)) {s t : σ}
    {is : List ι} {past : List ω} (start : Q s past) (reached : run step s is = some t) :
    Q t (past ++ outputs step out s is) :=
  run_outputs (fun s i t past before _ next => keep s i t past before next) start
    (along_of_forall s fun _ _ => trivial) reached

/-- When every admitted step keeps a property or leads into another, an admitted run has the first
throughout, or up to its first step into the other. -/
theorem run_until {Q : σ → Prop} (keep : ∀ s i t, P s → ok s i → step s i = some t → P t ∨ Q t)
    {s t : σ}
    {is : List ι} (start : P s) (admitted : Along step ok s is) (reached : run step s is = some t) :
    (Along step (fun s _ => P s) s is ∧ P t) ∨ ∃ before i after u v, is = before ++ i :: after ∧
      Along step (fun s _ => P s) s before ∧ run step s before = some u ∧ P u ∧ step u i = some v ∧
        Q v ∧
      run step v after = some t := by
  induction is generalizing s with
  | nil =>
    rw [run_nil, Option.some.injEq] at reached
    exact .inl ⟨trivial, reached ▸ start⟩
  | cons i is ih =>
    obtain ⟨u, next, rest⟩ := Option.bind_eq_some_iff.mp reached
    obtain kept | left := keep s i u start admitted.1 next
    · have only (v : σ) (next' : step s i = some v) : v = u := Option.some.inj (next'.symm.trans next)
      obtain ⟨along, last⟩ | ⟨before, j, after, v, w, rfl, along, reached', last, next', entered,
          rest'⟩ :=
        ih kept (admitted.2 u next) rest
      · exact .inl ⟨⟨start, fun v next' => only v next' ▸ along⟩, last⟩
      · refine .inr ⟨i :: before, j, after, v, w, rfl,
          ⟨start, fun x next' => only x next' ▸ along⟩, ?_, last, next',
          entered, rest'⟩
        rw [run_cons, next, Option.bind_some, reached']
    · exact .inr ⟨[], i, is, s, u, rfl, trivial, rfl, start, next, left, rest⟩

theorem outputs_length_le_outputs {ω ω' : Type} {out : σ → ι → List ω} {income : σ → ι → List ω'}
    (potential : σ → ℕ)
    (pay : ∀ s i t, P s → ok s i → step s i = some t →
      (out s i).length + potential t ≤ potential s + (income s i).length)
    (keep : ∀ s i t, P s → ok s i → step s i = some t → P t) {s t : σ} {is : List ι} (start : P s)
    (admitted : Along step ok s is) (reached : run step s is = some t) :
    (outputs step out s is).length + potential t ≤ potential s + (outputs step income s is).length := by
  induction is generalizing s with
  | nil =>
    rw [run_nil, Option.some.injEq] at reached
    rw [reached]
    exact Nat.le_of_eq (Nat.zero_add _)
  | cons i is ih =>
    obtain ⟨u, next, rest⟩ := Option.bind_eq_some_iff.mp reached
    have first := pay s i u start admitted.1 next
    have later := ih (keep s i u start admitted.1 next) (admitted.2 u next) rest
    simp only [outputs, next, List.length_append]
    omega

theorem length_guarded (raise : Bool) :
    (if raise then [()] else []).length = if raise then 1 else 0 := by
  cases raise <;> rfl

theorem length_outputs_le_countP (raise : ι → Bool) (s : σ) (is : List ι) :
    (outputs step (fun _ i => if raise i then [()] else []) s is).length ≤ is.countP raise := by
  induction is generalizing s with
  | nil => exact Nat.le_refl 0
  | cons i is ih =>
    rw [outputs, List.length_append, List.countP_cons, length_guarded, Nat.add_comm]
    refine Nat.add_le_add_right ?_ _
    cases step s i with
    | none => exact Nat.zero_le _
    | some t => exact ih t

/-- Outputs that are paid from a potential, which some of the steps raise by one. -/
theorem outputs_length_le {ω : Type} {out : σ → ι → List ω} (potential : σ → ℕ) (raise : ι → Bool)
    (pay : ∀ s i t, P s → ok s i → step s i = some t →
      (out s i).length + potential t ≤ potential s + if raise i then 1 else 0)
    (keep : ∀ s i t, P s → ok s i → step s i = some t → P t) {s t : σ} {is : List ι} (start : P s)
    (admitted : Along step ok s is) (reached : run step s is = some t) :
    (outputs step out s is).length + potential t ≤ potential s + is.countP raise := by
  have paid : (outputs step out s is).length + potential t ≤
      potential s + (outputs step (fun _ i => if raise i then [()] else []) s is).length := by
    refine outputs_length_le_outputs potential
      (fun s i t inv good next => ?_) keep start admitted reached
    rw [length_guarded]
    exact pay s i t inv good next
  exact Nat.le_trans paid (Nat.add_le_add_left (length_outputs_le_countP raise s is) _)

/-- When every admitted step is enabled and keeps a property, every admitted run exists. -/
theorem run_completes (progress : ∀ s i, P s → ok s i → ∃ t, step s i = some t ∧ P t) {s : σ}
    {is : List ι} (start : P s) (admitted : Along step ok s is) :
    ∃ t, run step s is = some t ∧ P t := by
  induction is generalizing s with
  | nil => exact ⟨s, rfl, start⟩
  | cons i is ih =>
    obtain ⟨u, next, kept⟩ := progress s i start admitted.1
    obtain ⟨t, reached, final⟩ := ih kept (admitted.2 u next)
    exact ⟨t, by rw [run_cons, next, Option.bind_some, reached], final⟩

/-- When every admitted step commutes with a map of the states, the map of a run is the run of the
map. -/
theorem run_map {τ : Type} {step' : τ → ι → Option τ} {ok' : τ → ι → Prop} (f : σ → τ)
    (commutes : ∀ s i, P s → ok' (f s) i → step' (f s) i = (step s i).map f ∧
      ∀ t, step s i = some t → P t) {s : σ}
    {is : List ι} (start : P s) (admitted : Along step' ok' (f s) is) :
    run step' (f s) is = (run step s is).map f ∧ ∀ t, run step s is = some t → P t := by
  induction is generalizing s with
  | nil => exact ⟨rfl, fun t same => Option.some.inj same ▸ start⟩
  | cons i is ih =>
    obtain ⟨same, kept⟩ := commutes s i start admitted.1
    cases next : step s i with
    | none =>
      rw [next] at same
      simp only [run_cons, same, next]
      exact ⟨rfl, nofun⟩
    | some u =>
      rw [next] at same
      obtain ⟨rest, final⟩ := ih (kept u next) (admitted.2 (f u) same)
      simp only [run_cons, same, next, Option.map_some, Option.bind_some]
      exact ⟨rest, final⟩

theorem along_iff_along {ok' : σ → ι → Prop} (agree : ∀ s i t, P s → step s i = some t →
      (ok s i ↔ ok' s i)) (keep : ∀ s i t, P s → step s i = some t → P t) {s t : σ} {is : List ι}
    (start : P s) (reached : run step s is = some t) :
    Along step ok s is ↔ Along step ok' s is := by
  induction is generalizing s with
  | nil => exact Iff.rfl
  | cons i is ih =>
    obtain ⟨u, next, rest⟩ := Option.bind_eq_some_iff.mp reached
    refine and_congr (agree s i u start next) (forall_congr' fun v => forall_congr' fun next' => ?_)
    rw [next, Option.some.injEq] at next'
    subst next'
    exact ih (keep s i u start next) rest

/-- When every step meets an obligation and keeps a property exactly under a condition, a run meets the
obligation along it and has the property throughout exactly when the condition holds along it. An
invariant that the property keeps may help. -/
theorem along_throughout_iff {ok' : σ → ι → Prop} {Q : σ → Prop}
    (exact : ∀ s i t, P s → Q s → step s i = some t → (ok s i ∧ P t ↔ ok' s i))
    (keep : ∀ s i t, P s → Q s → step s i = some t → Q t) {s t : σ} {is : List ι} (start : P s)
    (helps : Q s) (reached : run step s is = some t) :
    (Along step ok s is ∧
      ∀ before after u, is = before ++ after → run step s before = some u → P u) ↔
      Along step ok' s is := by
  induction is generalizing s with
  | nil =>
    constructor
    · intro _
      trivial
    · refine fun _ => ⟨trivial, fun before after u split there => ?_⟩
      rw [(List.append_eq_nil_iff.mp split.symm).1, run_nil, Option.some.injEq] at there
      exact there ▸ start
  | cons i is ih =>
    obtain ⟨v, next, rest⟩ := Option.bind_eq_some_iff.mp reached
    have helps' := keep s i v start helps next
    constructor
    · rintro ⟨⟨here, later⟩, all⟩
      have kept : P v := all [i] is v rfl (by rw [run_cons, next]; rfl)
      refine ⟨(exact s i v start helps next).mp ⟨here, kept⟩, fun w next' => ?_⟩
      rw [next, Option.some.injEq] at next'
      subst next'
      refine (ih kept helps' rest).mp ⟨later v next, fun before after u split there => ?_⟩
      exact all (i :: before) after u (by rw [split]; rfl) (by rw [run_cons, next]; exact there)
    · intro along
      obtain ⟨here, kept⟩ := (exact s i v start helps next).mpr along.1
      obtain ⟨later, all⟩ := (ih kept helps' rest).mpr (along.2 v next)
      refine ⟨⟨here, fun w next' => ?_⟩, fun before after u split there => ?_⟩
      · rw [next, Option.some.injEq] at next'
        exact next' ▸ later
      · cases before with
        | nil =>
          rw [run_nil, Option.some.injEq] at there
          exact there ▸ start
        | cons j before =>
          obtain ⟨rfl, tail⟩ := List.cons.inj split
          rw [run_cons, next, Option.bind_some] at there
          exact all before after u tail there

/-- When a step exists, meets an obligation and keeps a property exactly under a condition, a run exists
that meets the obligation along it and has the property throughout exactly when the condition holds
along it. -/
theorem exists_throughout_iff {ok' : σ → ι → Prop} {Q : σ → Prop}
    (exact : ∀ s i, P s → Q s → ((∃ t, step s i = some t ∧ ok s i ∧ P t) ↔ ok' s i))
    (keep : ∀ s i t, P s → Q s → step s i = some t → Q t) {s : σ} {is : List ι} (start : P s)
    (helps : Q s) :
    (∃ t, run step s is = some t ∧ Along step ok s is ∧
      ∀ before after u, is = before ++ after → run step s before = some u → P u) ↔
      Along step ok' s is := by
  have each : ∀ s i t, P s → Q s → step s i = some t → (ok s i ∧ P t ↔ ok' s i) := by
    intro s i t kept helps next
    rw [← exact s i kept helps]
    constructor
    · exact fun both => ⟨t, next, both⟩
    · rintro ⟨u, next', both⟩
      exact Option.some.inj (next'.symm.trans next) ▸ both
  constructor
  · rintro ⟨t, reached, both⟩
    exact (along_throughout_iff each keep start helps reached).mp both
  · intro along
    have progress : ∀ s i, P s ∧ Q s → ok' s i → ∃ t, step s i = some t ∧ P t ∧ Q t := by
      rintro s i ⟨kept, helps⟩ admitted
      obtain ⟨t, next, -, kept'⟩ := (exact s i kept helps).mpr admitted
      exact ⟨t, next, kept', keep s i t kept helps next⟩
    obtain ⟨t, reached, -⟩ := run_completes progress ⟨start, helps⟩ along
    exact ⟨t, reached, (along_throughout_iff each keep start helps reached).mpr along⟩

/-- When every step keeps a property exactly under a condition, the property holds throughout a run
exactly when the condition holds along it. -/
theorem throughout_iff_of {Q : σ → Prop}
    (exact : ∀ s i t, P s → Q s → step s i = some t → (P t ↔ ok s i))
    (keep : ∀ s i t, P s → Q s → step s i = some t → Q t) {s t : σ} {is : List ι} (start : P s)
    (helps : Q s) (reached : run step s is = some t) :
    (∀ before after u, is = before ++ after → run step s before = some u → P u) ↔
      Along step ok s is := by
  have both : (Along step (fun _ _ => True) s is ∧
      ∀ before after u, is = before ++ after → run step s before = some u → P u) ↔
      Along step ok s is :=
    along_throughout_iff
      (fun s i t kept helps next => (iff_of_eq (true_and _)).trans (exact s i t kept helps next))
      keep start helps reached
  have free : Along step (fun _ _ => True) s is := along_of_forall s fun _ _ => trivial
  rw [← both]
  exact (and_iff_right free).symm

theorem along_of_along {ok' : σ → ι → Prop} (follows : ∀ s i, P s → ok s i → ok' s i)
    (keep : ∀ s i t, P s → ok s i → step s i = some t → P t) {s : σ} {is : List ι} (start : P s)
    (along : Along step ok s is) : Along step ok' s is := by
  induction is generalizing s with
  | nil => trivial
  | cons i is ih =>
    exact ⟨follows s i start along.1, fun t next =>
      ih (keep s i t start along.1 next) (along.2 t next)⟩

theorem throughout_iff (exact : ∀ s i t, P s → step s i = some t → (P t ↔ ok s i)) {s t : σ}
    {is : List ι} (start : P s) (reached : run step s is = some t) :
    (∀ before after u, is = before ++ after → run step s before = some u → P u) ↔
      Along step ok s is :=
  throughout_iff_of (Q := fun _ => True) (fun s i t kept _ => exact s i t kept)
    (fun _ _ _ _ _ _ => trivial) start trivial reached

/-! ## Properties of the state and of the outputs so far -/

theorem run_recording {ω : Type} {out : σ → ι → List ω} {s t : σ} {is : List ι} (past : List ω)
    (reached : run step s is = some t) :
    run (recording step out) (s, past) is = some (t, past ++ outputs step out s is) := by
  induction is generalizing s past with
  | nil =>
    rw [run_nil, Option.some.injEq] at reached
    rw [reached, run_nil, outputs, List.append_nil]
  | cons i is ih =>
    obtain ⟨u, next, rest⟩ := Option.bind_eq_some_iff.mp reached
    have recorded : recording step out (s, past) i = some (u, past ++ out s i) := by
      rw [recording, next, Option.map_some]
    rw [run_cons, recorded, Option.bind_some, ih (past ++ out s i) rest, outputs, next,
      List.append_assoc]

theorem run_of_recording {ω : Type} {out : σ → ι → List ω} {s : σ} {past : List ω} {is : List ι}
    {t : σ × List ω} (reached : run (recording step out) (s, past) is = some t) :
    run step s is = some t.1 := by
  induction is generalizing s past with
  | nil =>
    rw [run_nil, Option.some.injEq] at reached
    rw [← reached, run_nil]
  | cons i is ih =>
    obtain ⟨_, recorded, rest⟩ := Option.bind_eq_some_iff.mp reached
    obtain ⟨u, next, rfl⟩ := Option.map_eq_some_iff.mp recorded
    rw [run_cons, next, Option.bind_some, ih rest]

theorem along_recording {ω : Type} (out : σ → ι → List ω) {s : σ} (past : List ω) {is : List ι} :
    Along (recording step out) (fun s i => ok s.1 i) (s, past) is ↔ Along step ok s is := by
  induction is generalizing s past with
  | nil => exact Iff.rfl
  | cons i is ih =>
    refine and_congr Iff.rfl ⟨fun later u next => ?_, fun later t recorded => ?_⟩
    · have recorded : recording step out (s, past) i = some (u, past ++ out s i) := by
        rw [recording, next, Option.map_some]
      exact (ih _).mp (later _ recorded)
    · obtain ⟨u, next, rfl⟩ := Option.map_eq_some_iff.mp recorded
      exact (ih _).mpr (later u next)

/-- When every step meets an obligation and keeps a property exactly under a condition, all three about
the state and the outputs so far, a run meets the obligation along it and has the property throughout
exactly when the condition holds along it. -/
theorem recording_throughout_iff {ω : Type} {out : σ → ι → List ω} {duty cond : σ × List ω → ι → Prop}
    {P Q : σ → List ω → Prop}
    (exact : ∀ s i t past, P s past → Q s past → step s i = some t →
      (duty (s, past) i ∧ P t (past ++ out s i) ↔ cond (s, past) i))
    (keep : ∀ s i t past, Q s past → step s i = some t → Q t (past ++ out s i)) {s t : σ}
    {is : List ι} {past : List ω} (start : P s past) (helps : Q s past)
    (reached : run step s is = some t) :
    (Along (recording step out) duty (s, past) is ∧
      ∀ before after u, is = before ++ after → run step s before = some u →
        P u (past ++ outputs step out s before)) ↔
      Along (recording step out) cond (s, past) is := by
  have each : ∀ (s : σ × List ω) i t, P s.1 s.2 → Q s.1 s.2 → recording step out s i = some t →
      (duty s i ∧ P t.1 t.2 ↔ cond s i) := by
    intro s i t kept helps recorded
    obtain ⟨u, next, rfl⟩ := Option.map_eq_some_iff.mp recorded
    exact exact s.1 i u s.2 kept helps next
  have stays : ∀ (s : σ × List ω) i t, P s.1 s.2 → Q s.1 s.2 → recording step out s i = some t →
      Q t.1 t.2 := by
    intro s i t _ helps recorded
    obtain ⟨u, next, rfl⟩ := Option.map_eq_some_iff.mp recorded
    exact keep s.1 i u s.2 helps next
  rw [← along_throughout_iff each stays start helps (run_recording past reached)]
  refine and_congr Iff.rfl ⟨fun all before after u split there => ?_,
    fun all before after u split there => ?_⟩
  · have recorded := run_of_recording there
    rw [run_recording past recorded, Option.some.injEq] at there
    exact there ▸ all before after u.1 split recorded
  · exact all before after _ split (run_recording past there)

theorem along_outputs_throughout_iff {ω : Type} {out : σ → ι → List ω} {ok' : σ → ι → Prop}
    {P : σ → List ω → Prop} {Q : σ → Prop}
    (exact : ∀ s i t past, P s past → Q s → step s i = some t →
      (ok s i ∧ P t (past ++ out s i) ↔ ok' s i))
    (keep : ∀ s i t, Q s → step s i = some t → Q t) {s t : σ} {is : List ι} {past : List ω}
    (start : P s past) (helps : Q s) (reached : run step s is = some t) :
    (Along step ok s is ∧ ∀ before after u, is = before ++ after → run step s before = some u →
      P u (past ++ outputs step out s before)) ↔ Along step ok' s is := by
  rw [← along_recording out past, ← along_recording out past]
  exact recording_throughout_iff exact (fun s i t _ => keep s i t) start helps reached

theorem outputs_throughout_iff {ω : Type} {out : σ → ι → List ω} {cond : σ × List ω → ι → Prop}
    {P Q : σ → List ω → Prop}
    (exact : ∀ s i t past, P s past → Q s past → step s i = some t →
      (P t (past ++ out s i) ↔ cond (s, past) i))
    (keep : ∀ s i t past, Q s past → step s i = some t → Q t (past ++ out s i)) {s t : σ}
    {is : List ι} {past : List ω} (start : P s past) (helps : Q s past)
    (reached : run step s is = some t) :
    (∀ before after u, is = before ++ after → run step s before = some u →
      P u (past ++ outputs step out s before)) ↔
      Along (recording step out) cond (s, past) is := by
  have free : Along (recording step out) (fun _ _ => True) (s, past) is :=
    along_of_forall _ fun _ _ => trivial
  have both : (Along (recording step out) (fun _ _ => True) (s, past) is ∧
      ∀ before after u, is = before ++ after → run step s before = some u →
        P u (past ++ outputs step out s before)) ↔
      Along (recording step out) cond (s, past) is :=
    recording_throughout_iff (fun s i t past kept helps next =>
      (iff_of_eq (true_and _)).trans (exact s i t past kept helps next)) keep start helps reached
  rw [← both]
  exact (and_iff_right free).symm

/-! ## Steps that are always enabled -/

theorem run_total (f : σ → ι → σ) (s : σ) (is : List ι) :
    run (fun s i => some (f s i)) s is = some (is.foldl f s) := by
  induction is generalizing s with
  | nil => rfl
  | cons i is ih => exact ih (f s i)

end Socrocket.Base.Run
