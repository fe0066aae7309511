import Mathlib.Tactic.TypeStar

/-!
# Histories

What happens to a world from outside, one act after another: runs of make, edits of a
file, removals.  `Along` says of every act of a history that it stands in some relation to
the world it acts on.

## Main definitions

* `Along` — every act of a history meets a condition where it happens.
* `Along.of_invariant` — a condition that keeps an invariant, and what follows from both.
-/

namespace Make

variable {W A : Type*}

/-- Every act of the history meets `P` in the world that the acts before it leave behind. -/
def Along (after : W → A → W) (P : W → A → Prop) : W → List A → Prop
  | _, [] => True
  | w, a :: as => P w a ∧ Along after P (after w a) as

section Along

variable {after : W → A → W} {P Q : W → A → Prop} {w : W} {a : A} {as : List A}

@[simp] theorem along_nil : Along after P w [] := trivial

@[simp] theorem along_cons : Along after P w (a :: as) ↔ P w a ∧ Along after P (after w a) as :=
  Iff.rfl

/-- **Whatever follows from an invariant that the acts keep** is so along the history. -/
theorem Along.of_invariant {I : W → Prop} (keeps : ∀ w a, I w → P w a → Q w a ∧ I (after w a))
    (hw : I w) (h : Along after P w as) : Along after Q w as := by
  induction as generalizing w with
  | nil => trivial
  | cons a as ih =>
    obtain ⟨hQ, hI⟩ := keeps w a hw h.1
    exact ⟨hQ, ih hI h.2⟩

theorem Along.and (hP : Along after P w as) (hQ : Along after Q w as) :
    Along after (fun w a => P w a ∧ Q w a) w as := by
  induction as generalizing w with
  | nil => trivial
  | cons a as ih => exact ⟨⟨hP.1, hQ.1⟩, ih hP.2 hQ.2⟩

theorem Along.mono (keeps : ∀ w a, P w a → Q w a) (h : Along after P w as) : Along after Q w as :=
  h.of_invariant (I := fun _ => True) (fun w a _ hP => ⟨keeps w a hP, trivial⟩) trivial

/-- **Conditions that agree while an invariant holds** agree along a history, if they keep it. -/
theorem along_congr {I : W → Prop} (agree : ∀ w a, I w → (P w a ↔ Q w a))
    (keeps : ∀ w a, I w → P w a → I (after w a)) (hw : I w) :
    Along after P w as ↔ Along after Q w as := by
  constructor
  · exact fun h => h.of_invariant (fun w a hI hP => ⟨(agree w a hI).mp hP, keeps w a hI hP⟩) hw
  · exact fun h => h.of_invariant (fun w a hI hQ =>
      ⟨(agree w a hI).mpr hQ, keeps w a hI ((agree w a hI).mpr hQ)⟩) hw

end Along

end Make
