import Mathlib.Data.List.Basic

/-!
# Recipes that may fail

Make executes the commands of a recipe one after the other and gives the recipe up
at the first one that fails.  `run c s` is what the command `c` does in the state
`s`, and whether it succeeds; a command that fails may have changed the state.

## Main definitions

* `runRecipe` — a recipe, up to its first failure.
* `runRecipe_append` — a recipe in two parts.
* `runRecipe_invariant` — what every command preserves.
-/

namespace Make

variable {κ σ : Type*}

/-- Execute commands up to the first failure. -/
def runRecipe (run : κ → σ → σ × Bool) : List κ → σ → σ × Bool
  | [], s => (s, true)
  | c :: cs, s => if (run c s).2 then runRecipe run cs (run c s).1 else ((run c s).1, false)

variable {run : κ → σ → σ × Bool} {c : κ} {cs ds : List κ} {s : σ}

@[simp] theorem runRecipe_nil : runRecipe run [] s = (s, true) := rfl

theorem runRecipe_cons_of_success (h : (run c s).2 = true) :
    runRecipe run (c :: cs) s = runRecipe run cs (run c s).1 := by
  rw [runRecipe, if_pos h]

theorem runRecipe_cons_of_failure (h : (run c s).2 = false) :
    runRecipe run (c :: cs) s = ((run c s).1, false) := by
  rw [runRecipe, if_neg (by simp [h])]

theorem runRecipe_cons_success_iff :
    (runRecipe run (c :: cs) s).2 = true ↔
      (run c s).2 = true ∧ (runRecipe run cs (run c s).1).2 = true := by
  cases h : (run c s).2 with
  | true => simp [runRecipe_cons_of_success h]
  | false => simp [runRecipe_cons_of_failure h]

/-- The second part of a recipe is executed if the first succeeds. -/
theorem runRecipe_append :
    runRecipe run (cs ++ ds) s =
      if (runRecipe run cs s).2 then runRecipe run ds (runRecipe run cs s).1
      else ((runRecipe run cs s).1, false) := by
  induction cs generalizing s with
  | nil => simp
  | cons c cs ih =>
    cases h : (run c s).2 with
    | true => rw [List.cons_append, runRecipe_cons_of_success h, runRecipe_cons_of_success h, ih]
    | false => simp [runRecipe_cons_of_failure h]

/-- **What every command preserves, a recipe preserves**, whether or not it succeeds. -/
theorem runRecipe_invariant {P : σ → Prop} (h : ∀ c ∈ cs, ∀ s, P s → P (run c s).1) (hs : P s) :
    P (runRecipe run cs s).1 := by
  induction cs generalizing s with
  | nil => exact hs
  | cons c cs ih =>
    have hc := h c (by simp) s hs
    cases hrun : (run c s).2 with
    | true =>
      rw [runRecipe_cons_of_success hrun]
      exact ih (fun d hd => h d (by simp [hd])) hc
    | false =>
      rw [runRecipe_cons_of_failure hrun]
      exact hc

/-- **A recipe succeeds when each command does**, as long as an invariant decides success. -/
theorem runRecipe_success_iff {P : σ → Prop} {ok : κ → Prop}
    (h : ∀ c ∈ cs, ∀ s, P s → P (run c s).1 ∧ ((run c s).2 = true ↔ ok c)) (hs : P s) :
    (runRecipe run cs s).2 = true ↔ ∀ c ∈ cs, ok c := by
  induction cs generalizing s with
  | nil => simp
  | cons c cs ih =>
    obtain ⟨hc, hok⟩ := h c (by simp) s hs
    rw [List.forall_mem_cons, ← hok]
    cases hrun : (run c s).2 with
    | true =>
      rw [runRecipe_cons_of_success hrun, ih (fun d hd => h d (by simp [hd])) hc]
      simp
    | false => simp [runRecipe_cons_of_failure hrun]

end Make
