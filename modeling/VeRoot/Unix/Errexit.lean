import Mathlib.Data.List.Basic

/-!
# Scripts that stop at a failure

A script under `set -e`, or the recipe of a rule, executes its commands one after the other
and ends at the first one that fails.  `does c s s' b` says that the command `c` can take
the state `s` to `s'`, and `b` whether it succeeds then; a command that fails may have
changed the state.

## Main definitions

* `Errexit` — the executions of a list of commands.
* `Errexit.append_success_iff` — a script in two parts.
* `Errexit.invariant` — what every command preserves.
* `AndOr` — commands that are joined by `&&` and `||`.
-/

namespace Unix

variable {κ σ : Type*} {does : κ → σ → σ → Bool → Prop}

/-- The script takes `s` to `s'`, and succeeds or not. -/
inductive Errexit (does : κ → σ → σ → Bool → Prop) : List κ → σ → σ → Bool → Prop
  | done (s) : Errexit does [] s s true
  | stop {c cs s s'} (fails : does c s s' false) : Errexit does (c :: cs) s s' false
  | next {c cs s s' s'' b} (succeeds : does c s s' true) (rest : Errexit does cs s' s'' b) :
      Errexit does (c :: cs) s s'' b

namespace Errexit

variable {c : κ} {cs ds : List κ} {s s' s'' : σ} {b : Bool} {P : σ → Prop}

/-- A script succeeds if its commands do, one after the other. -/
theorem cons_success_iff :
    Errexit does (c :: cs) s s'' true ↔ ∃ s', does c s s' true ∧ Errexit does cs s' s'' true := by
  constructor
  · intro h
    cases h with
    | next succeeds rest => exact ⟨_, succeeds, rest⟩
  · rintro ⟨s', succeeds, rest⟩
    exact .next succeeds rest

theorem nil_iff : Errexit does [] s s' b ↔ s' = s ∧ b = true := by
  constructor
  · intro h
    cases h
    exact ⟨rfl, rfl⟩
  · rintro ⟨rfl, rfl⟩
    exact .done _

/-- A script in two parts. -/
theorem append_success_iff :
    Errexit does (cs ++ ds) s s'' true ↔
      ∃ s', Errexit does cs s s' true ∧ Errexit does ds s' s'' true := by
  induction cs generalizing s with
  | nil => simp [nil_iff]
  | cons c cs ih =>
    simp only [List.cons_append, cons_success_iff, ih]
    constructor
    · rintro ⟨s₁, hc, s₂, hcs, hds⟩
      exact ⟨s₂, ⟨s₁, hc, hcs⟩, hds⟩
    · rintro ⟨s₂, ⟨s₁, hc, hcs⟩, hds⟩
      exact ⟨s₁, hc, s₂, hcs, hds⟩

/-- A script that ends early did so in the first part or in the second. -/
theorem append_cases (h : Errexit does (cs ++ ds) s s'' b) :
    (b = false ∧ Errexit does cs s s'' false) ∨
      ∃ s', Errexit does cs s s' true ∧ Errexit does ds s' s'' b := by
  induction cs generalizing s with
  | nil => exact .inr ⟨s, .done s, h⟩
  | cons c cs ih =>
    cases h with
    | stop fails => exact .inl ⟨rfl, .stop fails⟩
    | next succeeds rest =>
      rcases ih rest with ⟨hb, early⟩ | ⟨s₁, first, second⟩
      · exact .inl ⟨hb, .next succeeds early⟩
      · exact .inr ⟨s₁, .next succeeds first, second⟩

/-- **What every command preserves, a script preserves**, whether or not it succeeds. -/
theorem invariant (keeps : ∀ c ∈ cs, ∀ s s' b, does c s s' b → P s → P s')
    (h : Errexit does cs s s' b) (hs : P s) : P s' := by
  induction h with
  | done => exact hs
  | stop fails => exact keeps _ (by simp) _ _ _ fails hs
  | next succeeds rest ih =>
    exact ih (fun c hc => keeps c (by simp [hc])) (keeps _ (by simp) _ _ _ succeeds hs)

end Errexit

/-- Commands that are joined by `&&` and `||`. -/
inductive AndOr (κ : Type*)
  | cmd (c : κ)
  | and (a b : AndOr κ)
  | or (a b : AndOr κ)

/-- The executions of a list of commands that are joined. -/
inductive AndOr.Does (does : κ → σ → σ → Bool → Prop) : AndOr κ → σ → σ → Bool → Prop
  | cmd {c s s' b} (h : does c s s' b) : Does does (.cmd c) s s' b
  | andStop {x y s s'} (left : Does does x s s' false) : Does does (.and x y) s s' false
  | andNext {x y s s' s'' b} (left : Does does x s s' true) (right : Does does y s' s'' b) :
      Does does (.and x y) s s'' b
  | orStop {x y s s'} (left : Does does x s s' true) : Does does (.or x y) s s' true
  | orNext {x y s s' s'' b} (left : Does does x s s' false) (right : Does does y s' s'' b) :
      Does does (.or x y) s s'' b

section AndOr

variable {c : κ} {x y : AndOr κ} {s s' : σ} {b : Bool}

theorem AndOr.cmd_iff : AndOr.Does does (.cmd c) s s' b ↔ does c s s' b :=
  ⟨fun | .cmd h => h, .cmd⟩

end AndOr

end Unix
