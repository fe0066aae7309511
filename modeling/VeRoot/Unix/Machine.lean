import Mathlib.Algebra.GroupWithZero.Nat

/-!
# Machines with output

A machine reads a list element by element.  Each step may write something, and may refuse what it
reads.

## Main definitions

* `emit` — the output of a machine that reads a list.
* `emit_invariant` — what every step keeps.
* `emit_measure` — what no step increases.
-/

namespace Unix

variable {σ α β : Type*} {step : σ → α → Option (List β × σ)} {s s' s'' : σ} {a : α}
  {as as' : List α} {bs bs' : List β}

/-- What a machine makes of a list, and where it stops; `none` if it refuses the list. -/
def emit (step : σ → α → Option (List β × σ)) : σ → List α → Option (List β × σ)
  | s, [] => some ([], s)
  | s, a :: as => (step s a).bind fun r => (emit step r.2 as).map fun q => (r.1 ++ q.1, q.2)

theorem emit_cons : emit step s (a :: as) = some (bs, s'') ↔
    ∃ bs₁ s' bs₂, step s a = some (bs₁, s') ∧ emit step s' as = some (bs₂, s'') ∧
      bs = bs₁ ++ bs₂ := by
  constructor
  · intro h
    obtain ⟨r, hr, h⟩ := Option.bind_eq_some_iff.mp h
    obtain ⟨q, hq, e⟩ := Option.map_eq_some_iff.mp h
    obtain ⟨rfl, rfl⟩ := Prod.mk.inj e
    exact ⟨r.1, r.2, q.1, hr, hq, rfl⟩
  · rintro ⟨bs₁, s', bs₂, hr, hq, rfl⟩
    rw [emit, hr, Option.bind_some, hq]
    rfl

theorem emit_append (h : emit step s as = some (bs, s')) :
    emit step s (as ++ as') = (emit step s' as').map fun q => (bs ++ q.1, q.2) := by
  induction as generalizing s bs with
  | nil =>
    obtain ⟨rfl, rfl⟩ := Prod.mk.inj (Option.some.inj h)
    simp
  | cons a as ih =>
    obtain ⟨bs₁, s₁, bs₂, hr, hq, rfl⟩ := emit_cons.mp h
    rw [List.cons_append, emit, hr, Option.bind_some, ih hq, Option.map_map]
    simp [Function.comp_def]

/-- One list after the other. -/
theorem emit_trans (h : emit step s as = some (bs, s')) (h' : emit step s' as' = some (bs', s'')) :
    emit step s (as ++ as') = some (bs ++ bs', s'') := by
  rw [emit_append h, h']
  rfl

/-- A list that is refused somewhere. -/
theorem emit_refused (h : emit step s as = some (bs, s')) (h' : emit step s' as' = none) :
    emit step s (as ++ as') = none := by
  rw [emit_append h, h']
  rfl

theorem emit_append_of_none (h : emit step s as = none) : emit step s (as ++ as') = none := by
  induction as generalizing s with
  | nil => cases h
  | cons a as ih =>
    rw [List.cons_append, emit]
    cases hr : step s a with
    | none => rfl
    | some r =>
      rw [emit, hr, Option.bind_some, Option.map_eq_none_iff] at h
      rw [Option.bind_some, ih h]
      rfl

/-- **What every step keeps** on such a list, the machine keeps. -/
theorem emit_invariant {P : σ → Prop} {Q : β → Prop} {R : α → Prop}
    (keeps : ∀ s a r, R a → P s → step s a = some r → P r.2 ∧ ∀ b ∈ r.1, Q b)
    (has : ∀ a ∈ as, R a) (hs : P s) (h : emit step s as = some (bs, s')) :
    P s' ∧ ∀ b ∈ bs, Q b := by
  induction as generalizing s bs with
  | nil =>
    obtain ⟨rfl, rfl⟩ := Prod.mk.inj (Option.some.inj h)
    exact ⟨hs, by simp⟩
  | cons a as ih =>
    obtain ⟨bs₁, s₁, bs₂, hr, hq, rfl⟩ := emit_cons.mp h
    obtain ⟨hr, out⟩ := keeps s a _ (has a (by simp)) hs hr
    obtain ⟨hq, rest⟩ := ih (fun a ha => has a (by simp [ha])) hr hq
    exact ⟨hq, fun b hb => (List.mem_append.mp hb).elim (out b) (rest b)⟩

/-- **What no step increases**, counted in what is read, written and kept, the machine does not
increase. -/
theorem emit_measure {μ : σ → ℕ} {ν : β → ℕ} {κ : α → ℕ}
    (le : ∀ s a r, step s a = some r → (r.1.map ν).sum + μ r.2 ≤ μ s + κ a)
    (h : emit step s as = some (bs, s')) : (bs.map ν).sum + μ s' ≤ μ s + (as.map κ).sum := by
  induction as generalizing s bs with
  | nil =>
    obtain ⟨rfl, rfl⟩ := Prod.mk.inj (Option.some.inj h)
    simp
  | cons a as ih =>
    obtain ⟨bs₁, s₁, bs₂, hr, hq, rfl⟩ := emit_cons.mp h
    have first : (bs₁.map ν).sum + μ s₁ ≤ μ s + κ a := le s a _ hr
    have rest := ih hq
    simp only [List.map_append, List.sum_append, List.map_cons, List.sum_cons]
    omega

end Unix
