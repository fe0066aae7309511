import Mathlib.Data.List.Basic

/-!
# Interleaved histories

Several parties act on one state.  When nothing another party does can be seen by
`d`, and what `d` sees of its own actions depends on nothing but what `d` sees, a
history looks to `d` as if the others had not been there.

## Main definitions

* `purge` — the part of a history that is one party's own.
* `foldl_purge` — the rule.
-/

namespace Store

variable {σ ε δ : Type*} [DecidableEq δ]

/-- The events of the party `d`. -/
def purge (dom : ε → δ) (d : δ) (h : List ε) : List ε := h.filter fun e => dom e = d

variable {step : σ → ε → σ} {dom : ε → δ} {d : δ} {R : σ → σ → Prop} {P : ε → Prop} {s t : σ}

theorem purge_cons_own {e : ε} (h : dom e = d) (es : List ε) :
    purge dom d (e :: es) = e :: purge dom d es := by
  simp [purge, h]

theorem purge_cons_other {e : ε} (h : dom e ≠ d) (es : List ε) :
    purge dom d (e :: es) = purge dom d es := by
  simp [purge, h]

/-- **The purge rule.**  `R` relates states that look alike to `d`: the others' events keep
it on one side, its own events on both. -/
theorem foldl_purge (other : ∀ s t e, P e → dom e ≠ d → R s t → R (step s e) t)
    (own : ∀ s t e, P e → dom e = d → R s t → R (step s e) (step t e)) (h : List ε)
    (hP : ∀ e ∈ h, P e) (hR : R s t) : R (h.foldl step s) ((purge dom d h).foldl step t) := by
  induction h generalizing s t with
  | nil => exact hR
  | cons e h ih =>
    have he : P e := hP e (by simp)
    have hh : ∀ e ∈ h, P e := fun e he => hP e (by simp [he])
    by_cases hd : dom e = d
    · rw [purge_cons_own hd]
      exact ih hh (own s t e he hd hR)
    · rw [purge_cons_other hd]
      exact ih hh (other s t e he hd hR)

end Store
