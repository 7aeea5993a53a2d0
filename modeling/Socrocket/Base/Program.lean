/- Socrocket/Base/Program
   digest: Programs over a state that return or stop, and the calculus of what they are run for. -/

import Mathlib.Logic.Relation

set_option autoImplicit false
set_option relaxedAutoImplicit false

namespace Socrocket.Base

/-- A program over states `σ`: it returns an `α` or stops with an `ε`, and leaves a state either way. -/
abbrev Program (ε σ α : Type) := EStateM ε σ α

namespace Program

variable {ε σ α β : Type}

/-- Look at the state. -/
def read (f : σ → α) : Program ε σ α := fun s => .ok (f s) s

/-- Change the state. -/
def update (f : σ → σ) : Program ε σ Unit := fun s => .ok () (f s)

/-- Change the state and return what the change answers. -/
def perform (f : σ → α × σ) : Program ε σ α := fun s => .ok (f s).1 (f s).2

/-- Go no further. -/
def stop (e : ε) : Program ε σ α := fun s => .error e s

/-- Run from a state, the program returns where `Q` holds or stops where `E` does. -/
def Runs (x : Program ε σ α) (s : σ) (Q : α → σ → Prop) (E : ε → σ → Prop) : Prop :=
  match x s with
  | .ok a t => Q a t
  | .error e t => E e t

section Rules

variable {s : σ} {Q : α → σ → Prop} {R : β → σ → Prop} {E : ε → σ → Prop}

theorem runs_pure (a : α) : Runs (pure a : Program ε σ α) s Q E ↔ Q a s := Iff.rfl

theorem runs_read (f : σ → α) : Runs (read f) s Q E ↔ Q (f s) s := Iff.rfl

theorem runs_update (f : σ → σ) {Q : Unit → σ → Prop} : Runs (update f) s Q E ↔ Q () (f s) := Iff.rfl

theorem runs_perform (f : σ → α × σ) : Runs (perform f) s Q E ↔ Q (f s).1 (f s).2 := Iff.rfl

theorem runs_stop (e : ε) : Runs (stop e : Program ε σ α) s Q E ↔ E e s := Iff.rfl

/-- What the first part is run for is what the second is run for. -/
theorem runs_bind (x : Program ε σ α) (f : α → Program ε σ β) :
    Runs (x >>= f) s R E ↔ Runs x s (fun a t => Runs (f a) t R E) E := by
  show Runs (EStateM.bind x f) s R E ↔ _
  unfold Runs EStateM.bind
  cases x s <;> rfl

theorem runs_ite {c : Prop} [Decidable c] (x y : Program ε σ α) :
    Runs (if c then x else y) s Q E ↔ (c → Runs x s Q E) ∧ (¬ c → Runs y s Q E) := by
  split <;> simp_all

theorem Runs.mono {x : Program ε σ α} {Q' : α → σ → Prop} {E' : ε → σ → Prop} (h : Runs x s Q E)
    (returns : ∀ a t, Q a t → Q' a t) (stops : ∀ e t, E e t → E' e t) : Runs x s Q' E' := by
  unfold Runs at h ⊢
  cases result : x s with
  | ok a t => exact returns a t (by simpa only [result] using h)
  | error e t => exact stops e t (by simpa only [result] using h)

theorem Runs.of_ok {x : Program ε σ α} {t : σ} {a : α} (h : Runs x s Q E)
    (returns : x s = .ok a t) : Q a t := by
  simpa only [Runs, returns] using h

theorem Runs.of_error {x : Program ε σ α} {t : σ} {e : ε} (h : Runs x s Q E)
    (stops : x s = .error e t) : E e t := by
  simpa only [Runs, stops] using h

theorem Runs.returns {x : Program ε σ α} (h : Runs x s Q fun _ _ => False) :
    ∃ a t, x s = .ok a t ∧ Q a t := by
  cases result : x s with
  | ok a t => exact ⟨a, t, rfl, h.of_ok result⟩
  | error e t => exact (h.of_error result).elim

end Rules

/-! ## Two programs under a map of states -/

section Maps

variable {τ : Type} (f : σ → τ) (I : σ → Prop)

/-- The programs do the same, the second in the image of the state of the first, and the first keeps
`I`. -/
def Maps (x : Program ε σ α) (y : Program ε τ α) (s : σ) : Prop :=
  Runs x s (fun a t => y (f s) = .ok a (f t) ∧ I t) fun e t => y (f s) = .error e (f t) ∧ I t

variable {f I} {s : σ} {x : Program ε σ α} {y : Program ε τ α}

theorem maps_pure (a : α) (inv : I s) : Maps f I (pure a : Program ε σ α) (pure a) s := ⟨rfl, inv⟩

theorem maps_read {g : σ → α} {g' : τ → α} (same : g' (f s) = g s) (inv : I s) :
    Maps (ε := ε) f I (read g) (read g') s :=
  ⟨congrArg (fun a => EStateM.Result.ok a (f s)) same, inv⟩

theorem maps_update {g : σ → σ} {g' : τ → τ} (same : g' (f s) = f (g s)) (inv : I (g s)) :
    Maps (ε := ε) f I (update g) (update g') s :=
  ⟨congrArg (EStateM.Result.ok ()) same, inv⟩

theorem maps_perform {g : σ → α × σ} {g' : τ → α × τ} (same : g' (f s) = ((g s).1, f (g s).2))
    (inv : I (g s).2) :
    Maps (ε := ε) f I (perform g) (perform g') s :=
  ⟨congrArg (fun r : α × τ => EStateM.Result.ok r.1 r.2) same, inv⟩

theorem maps_stop (e : ε) (inv : I s) : Maps f I (stop e : Program ε σ α) (stop e) s := ⟨rfl, inv⟩

/-- The second parts start where the first ones return. -/
theorem maps_bind {g : α → Program ε σ β} {h : α → Program ε τ β} (first : Maps f I x y s)
    (rest : ∀ a t, x s = .ok a t → I t → Maps f I (g a) (h a) t) : Maps f I (x >>= g) (y >>= h) s := by
  unfold Maps Runs at first ⊢
  show match EStateM.bind x g s with
    | .ok b t => EStateM.bind y h (f s) = .ok b (f t) ∧ I t
    | .error e t => EStateM.bind y h (f s) = .error e (f t) ∧ I t
  unfold EStateM.bind
  cases result : x s with
  | ok a t =>
    rw [result] at first
    rw [first.1]
    exact rest a t result first.2
  | error e t =>
    rw [result] at first
    rw [first.1]
    exact ⟨rfl, first.2⟩

theorem Maps.mono {I' : σ → Prop} (h : Maps f I x y s) (weaker : ∀ t, I t → I' t) : Maps f I' x y s :=
  Runs.mono h (fun _ t both => ⟨both.1, weaker t both.2⟩) fun _ t both => ⟨both.1, weaker t both.2⟩

theorem maps_bind_kept {g : α → Program ε σ β} {h : α → Program ε τ β}
    (first : Maps f (· = s) x y s) (inv : I s)
    (rest : ∀ a, Maps f I (g a) (h a) s) : Maps f I (x >>= g) (y >>= h) s :=
  maps_bind (first.mono fun _ same => same ▸ inv) fun a _ returned _ =>
    (Runs.of_ok first returned).2 ▸ rest a

theorem maps_ite {c : Prop} [Decidable c] {x' : Program ε σ α} {y' : Program ε τ α}
    (yes : c → Maps f I x y s)
    (no : ¬ c → Maps f I x' y' s) : Maps f I (if c then x else x') (if c then y else y') s := by
  by_cases holds : c
  · rw [if_pos holds, if_pos holds]
    exact yes holds
  · rw [if_neg holds, if_neg holds]
    exact no holds

end Maps

end Program

end Socrocket.Base
