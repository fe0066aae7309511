import Mathlib.Data.List.Induction

/-!
# Stacked change sets

A change set says for some paths what they hold, or that they are gone.  A union
mount keeps change sets in a stack and looks a path up from the top: the first
change set with an entry for the path decides.  The same tree comes out when the
change sets are applied one after another, from the bottom, to an empty tree.

## Main definitions

* `Entry`, `ChangeSet`, `Tree` — change sets, and what they are changes of.
* `ChangeSet.apply`, `applyAll` — applying one change set, and several in order.
* `lookup` — the tree a stack shows.
* `lookup_reverse` — the two agree.
-/

namespace Store

variable {κ α : Type*}

/-- What a change set has for a path. -/
inductive Entry (α : Type*)
  | written (a : α)
  /-- The path is absent, whatever lies below. -/
  | whiteout
  deriving DecidableEq, Repr

/-- A change set: an entry for some of the paths. -/
abbrev ChangeSet (κ α : Type*) := κ → Option (Entry α)

/-- A tree of files: what the paths hold. -/
abbrev Tree (κ α : Type*) := κ → Option α

/-- What a path with this entry shows. -/
def Entry.shows : Entry α → Option α
  | .written a => some a
  | .whiteout => none

/-- The tree after the changes of `C`. -/
def ChangeSet.apply (C : ChangeSet κ α) (t : Tree κ α) : Tree κ α := fun p =>
  match C p with
  | some e => e.shows
  | none => t p

/-- The changes of a list of change sets, the first one first. -/
def applyAll (Cs : List (ChangeSet κ α)) (t : Tree κ α) : Tree κ α := Cs.foldl (fun t C => C.apply t) t

/-- The tree that a stack of change sets shows, the top one first: the first entry for a
path decides. -/
def lookup (Cs : List (ChangeSet κ α)) : Tree κ α := fun p => (Cs.findSome? fun C => C p).bind Entry.shows

variable {Cs : List (ChangeSet κ α)} {C : ChangeSet κ α} {t : Tree κ α} {p : κ} {e : Entry α}

theorem ChangeSet.apply_of_some (h : C p = some e) : C.apply t p = e.shows := by
  simp [ChangeSet.apply, h]

theorem ChangeSet.apply_of_none (h : C p = none) : C.apply t p = t p := by
  simp [ChangeSet.apply, h]

@[simp] theorem applyAll_nil : applyAll [] t = t := rfl

theorem applyAll_append (As Bs : List (ChangeSet κ α)) :
    applyAll (As ++ Bs) t = applyAll Bs (applyAll As t) := List.foldl_append

theorem applyAll_concat : applyAll (Cs ++ [C]) t = C.apply (applyAll Cs t) := by
  simp [applyAll]

@[simp] theorem lookup_nil : lookup ([] : List (ChangeSet κ α)) = fun _ => none := rfl

/-- The top of the stack is applied last. -/
theorem lookup_cons : lookup (C :: Cs) = C.apply (lookup Cs) := by
  funext p
  cases h : C p with
  | some e => simp [lookup, h, ChangeSet.apply_of_some h]
  | none => simp [lookup, h, ChangeSet.apply_of_none h]

/-- **Looking a stack up is applying it from the bottom.** -/
theorem lookup_reverse (Cs : List (ChangeSet κ α)) : lookup Cs.reverse = applyAll Cs fun _ => none := by
  induction Cs using List.reverseRecOn with
  | nil => rfl
  | append_singleton Cs C ih =>
    rw [List.reverse_append, List.reverse_singleton, List.singleton_append, lookup_cons, ih,
      applyAll_concat]

/-- A change set without an entry for a path leaves the path alone. -/
theorem applyAll_of_none (h : ∀ C ∈ Cs, C p = none) : applyAll Cs t p = t p := by
  induction Cs using List.reverseRecOn with
  | nil => rfl
  | append_singleton Cs C ih =>
    rw [applyAll_concat, ChangeSet.apply_of_none (h C (by simp))]
    exact ih fun D hD => h D (by simp [hD])

/-- **The last change set with an entry for a path wins.** -/
theorem applyAll_of_last (As : List (ChangeSet κ α)) (hC : C p = some e) (h : ∀ D ∈ Cs, D p = none) :
    applyAll (As ++ C :: Cs) t p = e.shows := by
  rw [List.append_cons, applyAll_append, applyAll_of_none h, applyAll_concat,
    ChangeSet.apply_of_some hC]

/-- Change sets that only write leave what they do not write. -/
theorem applyAll_eq_or (h : ∀ C ∈ Cs, C p ≠ some .whiteout) :
    applyAll Cs t p = (applyAll Cs (fun _ => none) p).or (t p) := by
  induction Cs using List.reverseRecOn with
  | nil => rfl
  | append_singleton Cs C ih =>
    rw [applyAll_concat, applyAll_concat]
    cases hC : C p with
    | none =>
      rw [ChangeSet.apply_of_none hC, ChangeSet.apply_of_none hC]
      exact ih fun D hD => h D (by simp [hD])
    | some e =>
      rw [ChangeSet.apply_of_some hC, ChangeSet.apply_of_some hC]
      cases e with
      | written a => rfl
      | whiteout => exact absurd hC (h C (by simp))

/-- Then the paths are those of the tree and of the change sets. -/
theorem applyAll_ne_none_iff (h : ∀ C ∈ Cs, C p ≠ some .whiteout) :
    applyAll Cs t p ≠ none ↔ (∃ C ∈ Cs, C p ≠ none) ∨ t p ≠ none := by
  induction Cs using List.reverseRecOn with
  | nil => simp
  | append_singleton Cs C ih =>
    rw [applyAll_concat]
    cases hC : C p with
    | none =>
      rw [ChangeSet.apply_of_none hC, ih fun D hD => h D (by simp [hD])]
      simp [or_and_right, exists_or, hC]
    | some e =>
      rw [ChangeSet.apply_of_some hC]
      cases e with
      | written a => simp [or_and_right, exists_or, hC, Entry.shows]
      | whiteout => exact absurd hC (h C (by simp))

end Store
