import VeRoot.Make.Run

/-!
# Proof outlines

Some nodes of a build share a part of the world that the others leave alone, and no two of
them run at the same time.  What holds of that part while one of them is running depends on
the commands it still has before it, and an invariant holds while none is.

## Main definitions

* `Outline` — an assertion for every point of every recipe, and the invariant.
* `Outline.holds` — what holds in every state of a run.
-/

namespace Make

namespace System

variable {ν κ W : Type*} [DecidableEq ν]

/-- `J` holds while no node of `N` is running, and `A n rest` while the node `n` of `N` has the
commands `rest` before it. -/
structure Outline (S : System ν κ W) (N : ν → Prop) (J : W → Prop) (A : ν → List κ → W → Prop) :
    Prop where
  enter : ∀ n w, N n → J w → A n (S.recipe n) w
  step : ∀ n c rest w w', N n → c :: rest <:+ S.recipe n → A n (c :: rest) w → S.exec c w w' →
    A n rest w'
  leave : ∀ n w, N n → A n [] w → J w
  /-- The other nodes keep every assertion. -/
  others : ∀ m, ¬ N m → S.wanted m → ∀ c ∈ S.recipe m, ∀ w w', S.exec c w w' →
    (J w → J w') ∧ ∀ n rest, N n → A n rest w → A n rest w'
  /-- No two of the nodes run at the same time. -/
  apart : ∀ w s, S.Reachable w s → ∀ n m, N n → N m → (s.phase n).Running →
    (s.phase m).Running → n = m

/-- What the outline says of one state. -/
def Outlined (N : ν → Prop) (J : W → Prop) (A : ν → List κ → W → Prop) (s : State ν κ W) : Prop :=
  (∀ n rest, N n → s.phase n = .running rest → A n rest s.world) ∧
    ((∀ n, N n → ¬ (s.phase n).Running) → J s.world)

variable {S : System ν κ W} {N : ν → Prop} {J : W → Prop} {A : ν → List κ → W → Prop}

/-- The phases of the other nodes do not matter. -/
theorem Outlined.others {s : State ν κ W} (h : Outlined N J A s) {m : ν} (hm : ¬ N m) (p : Phase κ)
    {w : W} (keepsJ : J s.world → J w) (keepsA : ∀ n rest, N n → A n rest s.world → A n rest w) :
    Outlined N J A ⟨Function.update s.phase m p, w⟩ := by
  have same : ∀ n, N n → Function.update s.phase m p n = s.phase n := by
    intro n hn
    refine Function.update_of_ne ?_ ..
    rintro rfl
    exact hm hn
  constructor
  · intro n rest hn hr
    exact keepsA n rest hn (h.1 n rest hn ((same n hn).symm.trans hr))
  · intro none
    exact keepsJ (h.2 fun n hn => same n hn ▸ none n hn)

/-- **The outline holds in every state of a run.** -/
theorem Outline.holds (o : S.Outline N J A) {w : W} (hw : J w) {s : State ν κ W}
    (h : S.Reachable w s) : Outlined N J A s := by
  refine h.invariant (P := Outlined N J A) ⟨by simp [start], fun _ => hw⟩ ?_
  clear h s
  intro s s' hs outlined step
  have ih := outlined.1
  have ihJ := outlined.2
  have hs' := hs.step step
  cases step with
  | make m idle wanted ready may =>
    by_cases hm : N m
    · have alone : ∀ n, N n → ¬ (s.phase n).Running := by
        intro n hn running
        have ne : n ≠ m := by
          rintro rfl
          simp [idle, Phase.Running] at running
        exact ne (o.apart w _ hs' n m hn hm (by simpa [Function.update_of_ne ne] using running)
          (by simp [Phase.Running]))
      constructor
      · intro n rest hn running
        by_cases e : n = m
        · subst e
          obtain rfl : S.recipe n = rest := by simpa using running
          exact o.enter n _ hn (ihJ alone)
        · have running : s.phase n = .running rest := by simpa [Function.update_of_ne e] using running
          exact absurd (by simp [running, Phase.Running]) (alone n hn)
      · intro none
        exact absurd (by simp [Phase.Running]) (none m hm)
    · exact outlined.others hm _ id fun _ _ _ => id
  | keep m idle =>
    constructor
    · intro n rest hn hr
      have e : n ≠ m := by
        rintro rfl
        simp at hr
      exact ih n rest hn (by simpa [Function.update_of_ne e] using hr)
    · intro none
      refine ihJ fun n hn => ?_
      by_cases e : n = m
      · subst e
        simp [idle, Phase.Running]
      · simpa [Function.update_of_ne e] using none n hn
  | exec m c rest w' running does =>
    have wanted : S.wanted m := hs.wanted_of_begun (by simp [running])
    have hsuf := hs.suffix running
    by_cases hm : N m
    · constructor
      · intro n rest' hn hr
        obtain rfl : n = m := o.apart w _ hs' n m hn hm (by rw [hr]; trivial)
          (by simp [Phase.Running])
        obtain rfl : rest = rest' := by simpa using hr
        exact o.step n c rest _ _ hn hsuf (ih n _ hn running) does
      · intro none
        exact absurd (by simp [Phase.Running]) (none m hm)
    · obtain ⟨keepsJ, keepsA⟩ := o.others m hm wanted c (hsuf.subset (by simp)) _ _ does
      exact outlined.others hm _ keepsJ keepsA
  | finish m running =>
    by_cases hm : N m
    · refine ⟨fun n rest hn hr => ?_, fun _ => o.leave m _ hm (ih m [] hm running)⟩
      have e : n ≠ m := by
        rintro rfl
        simp at hr
      have hr : s.phase n = .running rest := by simpa [Function.update_of_ne e] using hr
      exact absurd (o.apart w s hs n m hn hm (by simp [hr, Phase.Running])
        (by simp [running, Phase.Running])) e
    · exact outlined.others hm _ id fun _ _ _ => id

end System

end Make
