import VeRoot.Make.Sparing

/-!
# Who is remade with a file

When a file is remade, so is everything that leads to it by normal prerequisites, and nothing
else has to be.

## Main definitions

* `Completed.made_of_path` — what leads to a file that is remade is remade.
* `exists_not_made` — a file is removed after a first run, and the next run remakes it without
  a file that does not lead to it.
-/

namespace Make

namespace Project

variable {ν : Type*} [DecidableEq ν] {P : Project ν} {U : ν → Prop} {w : Files ν}
  {s s' : State ν (FileCmd ν) (Files ν)} {a b f n t u : ν}

/-! ## What is remade -/

/-- A file that is kept has no prerequisite that is remade. -/
theorem kept_of_kept (h : P.system.Reachable w s) (hf : P.Forces a b) (ha : s.phase a = .kept) :
    s.phase b = .kept := by
  refine h.invariant (P := fun s => s.phase a = .kept → s.phase b = .kept) (by simp [System.start])
    ?_ ha
  intro s s' hs ih step ha
  rcases step.phase_cases a with same | ⟨-, -, ready, -, ⟨-, running⟩ | ⟨may, -⟩⟩ |
    ⟨c, rest, -, running, -⟩ | ⟨-, made, -⟩
  · have hb := ih (same ▸ ha)
    rw [step.phase_of_finished (by simp [hb]), hb]
  · simp [running] at ha
  · have done : (s.phase b).Finished := ready b hf.honours.1 hf.honours.2
    have not_made : s.phase b ≠ .made := fun made => may (.inr (.inr ⟨b, hf, .inl made⟩))
    rw [step.phase_of_finished done]
    cases hp : s.phase b with
    | kept => rfl
    | made => exact absurd hp not_made
    | idle | running cs => simp [hp] at done
  · simp [running] at ha
  · simp [made] at ha

/-- **What leads to a file that is remade is remade.** -/
theorem Completed.made_of_path (h : P.Completed w s) (path : Relation.TransGen P.Forces t u)
    (wanted : P.system.wanted t) (hu : s.phase u = .made) : s.phase t = .made := by
  have below : ∀ a, Relation.TransGen P.Forces a u → P.system.wanted a → s.phase a = .made := by
    intro a path
    induction path using Relation.TransGen.head_induction_on with
    | single e =>
      intro wanted
      have done := h.2 _ wanted
      cases hp : s.phase _ with
      | made => rfl
      | kept =>
        have := kept_of_kept h.1 e hp
        simp [hu] at this
      | idle | running cs => simp [hp] at done
    | head e _ ih =>
      intro wanted
      have done := h.2 _ wanted
      cases hp : s.phase _ with
      | made => rfl
      | kept =>
        have := kept_of_kept h.1 e hp
        simp [ih (wanted.tail (.inl e.1))] at this
      | idle | running cs => simp [hp] at done
  exact below t path wanted

/-! ## What is not -/

/-- **A file is removed after a first run**, and the next run remakes it without a file that
does not lead to it, if no recipe changes other files. -/
theorem exists_not_made (tidy : P.Tidy) (still : ∀ m n, .change n ∉ P.recipe m) (hu : P.File u)
    (hf : P.Forces u f) (ht : P.File t) (apart : ¬ Relation.ReflTransGen P.Forces t u) :
    ∃ s₁ s₂, P.Completed P.blank s₁ ∧ P.Completed (s₁.world.remove (· = u)) s₂ ∧
      s₂.phase u = .made ∧ s₂.phase t ≠ .made := by
  have rule : IsTarget P.rules u := hf.1.imp fun _ hr => ⟨hr.1, hr.2.1⟩
  have leaves : P.Leaves (System.start P.blank) := fun m hm => by simp [System.start, blank, hm]
  obtain ⟨s₁, run₁⟩ := Stocked.exists_completed leaves.stocked tidy
  have settled : P.Settled s₁.world :=
    run₁.settled tidy fun m n _ _ _ hc => absurd hc (still m n)
  have other : ∀ m, m ≠ u → (s₁.world.remove (· = u)).mtime m = s₁.world.mtime m := by
    intro m hm
    simp [Files.remove, hm]
  have stocked : P.Stocked (s₁.world.remove (· = u)) := by
    intro m hm hrule
    rw [other m fun e => hrule (e ▸ rule)]
    exact System.preserved (fun _ _ hs step => Leaves.step hs step) run₁.1 leaves m hrule
  obtain ⟨s₂, run₂⟩ := Stocked.exists_completed stocked tidy
  refine ⟨s₁, s₂, run₁, run₂, ?_, ?_⟩
  · have ne : f ≠ u := by
      rintro rfl
      exact P.acyclic f (.single hf.honours)
    refine made_of_newer tidy run₂.1 hu hf (fun m => still m u) ?_ (run₂.2 u hu.1)
    rw [other f ne]
    simpa [Files.remove] using Nat.pos_of_ne_zero (settled f (hu.forces tidy hf)).1
  · have off : P.SettledOff (fun n => Relation.ReflTransGen P.Forces n u)
        (s₁.world.remove (· = u)) := by
      intro n hn hpath
      rw [other n fun e => hpath (e ▸ .refl)]
      refine ⟨(settled n hn).1, fun b hb => ?_⟩
      rw [other b fun e => hpath (e ▸ .single hb)]
      exact (settled n hn).2 b hb
    have := (off.idle tidy (fun a b e path => .head e path) (fun m _ _ n _ => still m n) run₂.1 t ht
      apart).1
    intro made
    exact this (by simp [made])

end Project

end Make
