import Mathlib.Data.List.Basic

/-!
# Text functions

A make variable that holds a list of words is modelled by the list of its words,
and the text functions by the list functions below.  A pattern without `%`
matches the one word it spells, which is the only kind of pattern the functions
here are used with.

## Main definitions

* `lastword`, `filterOut` — `$(lastword …)` and `$(filter-out …)`.
* `reverse` — the recursive reversal that makefiles write with `$(call …)`.
-/

namespace Make

variable {α : Type*}

/-- `$(lastword ws)`; the empty text when there is no word. -/
def lastword (ws : List α) : Option α := ws.getLast?

/-- `$(filter-out w,ws)`; the empty pattern filters nothing. -/
def filterOut [DecidableEq α] (w : Option α) (ws : List α) : List α :=
  ws.filter (fun v => some v ≠ w)

/-- `$(if $(wordlist 2,2,ws),$(call reverse,$(wordlist 2,$(words ws),ws)) $(firstword ws),ws)`. -/
def reverse : List α → List α
  | v :: w :: ws => reverse (w :: ws) ++ [v]
  | ws => ws

@[simp] theorem lastword_nil : lastword ([] : List α) = none := rfl

@[simp] theorem lastword_concat (ws : List α) (w : α) : lastword (ws ++ [w]) = some w := by
  simp [lastword]

theorem mem_of_lastword {ws : List α} {w : α} (h : lastword ws = some w) : w ∈ ws :=
  List.mem_of_getLast? h

/-- The recursive reversal is the reversal. -/
theorem reverse_eq (ws : List α) : reverse ws = ws.reverse := by
  fun_induction reverse ws with
  | case1 v w ws ih => simp [ih]
  | case2 ws h =>
    match ws, h with
    | [], _ => rfl
    | [_], _ => rfl
    | v :: w :: ws, h => exact absurd rfl (h v w ws)

@[simp] theorem filterOut_append [DecidableEq α] (w : Option α) (us vs : List α) :
    filterOut w (us ++ vs) = filterOut w us ++ filterOut w vs := List.filter_append ..

theorem filterOut_of_notMem [DecidableEq α] {ws : List α} {w : α} (h : w ∉ ws) :
    filterOut (some w) ws = ws := by
  have keep : ∀ v ∈ ws, v ≠ w := by rintro v hv rfl; exact h hv
  simpa [filterOut] using keep

@[simp] theorem filterOut_self [DecidableEq α] (w : α) : filterOut (some w) [w] = [] := by
  simp [filterOut]

/-- Filtering the last word out of a list of distinct words drops just that word. -/
theorem filterOut_lastword [DecidableEq α] {ws : List α} {w : α} (h : w ∉ ws) :
    filterOut (lastword (ws ++ [w])) (ws ++ [w]) = ws := by
  rw [lastword_concat, filterOut_append, filterOut_of_notMem h, filterOut_self, List.append_nil]

end Make
