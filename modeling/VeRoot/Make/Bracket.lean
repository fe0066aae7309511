import VeRoot.Make.Run

/-!
# A condition held between two nodes

One node's recipe has a command that brings a condition about, another node's recipe
has one that ends it, and nothing else in the build does either.  When the second
node waits for the first, the condition holds exactly between the two commands,
whatever runs beside them.

## Main definitions

* `Keeps`, `Spoils` — what a list of commands may do to a condition.
* `Bracket` — the two nodes, and what every recipe does to the condition.
* `Bracket.iff_of_past`, `Bracket.iff_past` — when the condition holds.
-/

namespace Make

namespace System

variable {ν κ W : Type*}

/-- No command of `cs` changes whether `Q` holds. -/
def Keeps (S : System ν κ W) (Q : W → Prop) (cs : List κ) : Prop :=
  ∀ e ∈ cs, ∀ w w', S.exec e w w' → (Q w' ↔ Q w)

/-- No command of `cs` brings `Q` about. -/
def Spoils (S : System ν κ W) (Q : W → Prop) (cs : List κ) : Prop :=
  ∀ e ∈ cs, ∀ w w', S.exec e w w' → ¬ Q w → ¬ Q w'

/-- `opener` brings `Q` about by its command `c`, `closer` ends it by its command `d`, and
`closer` waits for `opener`. -/
structure Bracket (S : System ν κ W) (Q : W → Prop) (opener closer : ν) (c d : κ) : Prop where
  ne : opener ≠ closer
  opens : ∀ w w', S.exec c w w' → Q w'
  closes : ∀ w w', S.exec d w w' → ¬ Q w'
  /-- `Q` does not hold before the opening command and stays after it. -/
  recipe_opener : ∃ A B, S.recipe opener = A ++ c :: B ∧ c ∉ B ∧ S.Spoils Q A ∧ S.Keeps Q B
  /-- `Q` stays up to the closing command and does not hold after it. -/
  recipe_closer : ∃ A B, S.recipe closer = A ++ d :: B ∧ d ∉ B ∧ S.Keeps Q A ∧ S.Spoils Q B
  others : ∀ m, m ≠ opener → m ≠ closer → S.wanted m → S.Keeps Q (S.recipe m)
  not_kept : ∀ s, ¬ S.mayKeep s opener ∧ ¬ S.mayKeep s closer
  waits : Relation.TransGen (Firm S.prereq) closer opener

/-- Splitting what is left of a recipe at the one command `c`. -/
theorem suffix_split {c e : κ} {A B rest : List κ} (h : e :: rest <:+ A ++ c :: B) :
    (e ∈ A ∧ c ∈ rest) ∨ (e = c ∧ rest = B) ∨ (e ∈ B ∧ rest ⊆ B) := by
  obtain ⟨done, h⟩ := h
  rcases List.append_eq_append_iff.mp h with ⟨A', rfl, h⟩ | ⟨C, rfl, h⟩
  · rcases A' with _ | ⟨x, A'⟩
    · obtain ⟨rfl, rfl⟩ := by simpa using h
      exact .inr (.inl ⟨rfl, rfl⟩)
    · obtain ⟨rfl, rfl⟩ := by simpa using h
      exact .inl ⟨by simp, by simp⟩
  · rcases C with _ | ⟨x, C⟩
    · obtain ⟨rfl, rfl⟩ := by simpa using h
      exact .inr (.inl ⟨rfl, rfl⟩)
    · obtain ⟨rfl, rfl⟩ := by simpa using h
      exact .inr (.inr ⟨by simp, fun y hy => by simp [hy]⟩)

variable [DecidableEq ν] {S : System ν κ W} {Q : W → Prop} {opener closer : ν} {c d : κ}

/-- While the opener is not made, the closer has not begun. -/
theorem Bracket.closer_idle (b : S.Bracket Q opener closer c d) {w : W} {s : State ν κ W}
    (h : S.Reachable w s) (ho : ¬ (s.phase opener).Finished) : s.phase closer = .idle := by
  by_contra hc
  exact ho (h.finished_of_firm_path b.waits hc)

/-- A node that is never kept is made once it is finished. -/
theorem Reachable.made_of_finished {w : W} {s : State ν κ W} (h : S.Reachable w s) {n : ν}
    (hk : ∀ s, ¬ S.mayKeep s n) (hn : (s.phase n).Finished) : s.phase n = .made := by
  have never : s.phase n ≠ .kept := by
    refine h.invariant (P := fun s => s.phase n ≠ .kept) (by simp [start]) ?_
    intro s s' _ ih step
    rcases step.phase_cases n with same | ⟨-, -, -, -, ⟨-, made⟩ | ⟨may, -⟩⟩ |
      ⟨c, rest, -, now, -⟩ | ⟨-, made, -⟩
    · rwa [same]
    · simp [made]
    · exact absurd may (hk s)
    · simp [now]
    · simp [made]
  cases hp : s.phase n with
  | made => rfl
  | kept => exact absurd hp never
  | idle | running rest => simp [hp] at hn

/-- The condition is as it was in the beginning until the opener is begun. -/
theorem Bracket.iff_of_idle (b : S.Bracket Q opener closer c d) {w : W} {s : State ν κ W}
    (h : S.Reachable w s) (idle : s.phase opener = .idle) : Q s.world ↔ Q w := by
  revert idle
  refine h.invariant (P := fun s => s.phase opener = .idle → (Q s.world ↔ Q w)) (fun _ => Iff.rfl) ?_
  clear h s
  intro s s' hs ih step idle
  cases step with
  | make m | keep m | finish m =>
    have eo : opener ≠ m := by
      rintro rfl
      simp at idle
    exact ih (by simpa [Function.update_of_ne eo] using idle)
  | exec m e rest w' running does =>
    have eo : opener ≠ m := by
      rintro rfl
      simp at idle
    have idle : s.phase opener = .idle := by simpa [Function.update_of_ne eo] using idle
    have ec : m ≠ closer := by
      rintro rfl
      simp [b.closer_idle hs (by simp [idle])] at running
    have wanted : S.wanted m := hs.wanted_of_begun (by simp [running])
    rw [b.others m eo.symm ec wanted e ((hs.suffix running).subset (by simp)) _ _ does]
    exact ih idle

/-- Once the opening command is past, the condition holds until the closing one is.  Before
that it holds only where it held in the beginning. -/
theorem Bracket.iff_and_imp (b : S.Bracket Q opener closer c d) {w : W} {s : State ν κ W}
    (h : S.Reachable w s) :
    ((s.phase opener).Past c → (Q s.world ↔ ¬ (s.phase closer).Past d)) ∧
      (¬ (s.phase opener).Past c → Q s.world → Q w) := by
  obtain ⟨A, B, hro, hcB, hA, hB⟩ := b.recipe_opener
  obtain ⟨A', B', hrc, hdB, hA', hB'⟩ := b.recipe_closer
  refine h.invariant (P := fun s =>
    ((s.phase opener).Past c → (Q s.world ↔ ¬ (s.phase closer).Past d)) ∧
      (¬ (s.phase opener).Past c → Q s.world → Q w)) (by simp [start]) ?_
  clear h s
  intro s s' hs ih step
  cases step with
  | make m idle =>
    by_cases eo : m = opener
    · subst eo
      simpa [hro, idle, Function.update_of_ne b.ne.symm] using ih
    · by_cases ec : m = closer
      · subst ec
        simpa [hrc, idle, Function.update_of_ne b.ne] using ih
      · simpa [Function.update_of_ne (Ne.symm eo), Function.update_of_ne (Ne.symm ec)] using ih
  | keep m idle wanted ready may =>
    have eo : m ≠ opener := fun e => (b.not_kept s).1 (e ▸ may)
    have ec : m ≠ closer := fun e => (b.not_kept s).2 (e ▸ may)
    simpa [Function.update_of_ne (Ne.symm eo), Function.update_of_ne (Ne.symm ec)] using ih
  | finish m running =>
    by_cases eo : m = opener
    · subst eo
      simpa [running, Function.update_of_ne b.ne.symm] using ih
    · by_cases ec : m = closer
      · subst ec
        simpa [running, Function.update_of_ne b.ne] using ih
      · simpa [Function.update_of_ne (Ne.symm eo), Function.update_of_ne (Ne.symm ec)] using ih
  | exec m e rest w' running does =>
    have wanted : S.wanted m := hs.wanted_of_begun (by simp [running])
    have hsuf := hs.suffix running
    by_cases eo : m = opener
    · -- the opener moves on: the closer is idle
      subst eo
      have hidle : s.phase closer = .idle := b.closer_idle hs (by simp [running])
      simp only [running, hidle, Phase.past_running, Phase.not_past_idle, not_false_eq_true,
        iff_true, List.mem_cons, not_or, Function.update_self,
        Function.update_of_ne b.ne.symm] at ih ⊢
      rw [hro] at hsuf
      rcases suffix_split hsuf with ⟨he, hcr⟩ | ⟨rfl, rfl⟩ | ⟨he, hsub⟩
      · refine ⟨fun h => absurd hcr h, fun _ hQ => ih.2 (by simp [hcr]) ?_⟩
        by_contra hn
        exact hA e he _ _ does hn hQ
      · exact ⟨fun _ => b.opens _ _ does, fun h => absurd hcB h⟩
      · have hne : c ≠ e := by rintro rfl; exact hcB he
        have hcr : c ∉ rest := fun h => hcB (hsub h)
        exact ⟨fun _ => (hB e he _ _ does).mpr (ih.1 ⟨hne, hcr⟩), fun h => absurd hcr h⟩
    · by_cases ec : m = closer
      · -- the closer moves on: the opener is made
        subst ec
        have hmade : s.phase opener = .made :=
          hs.made_of_finished (fun s => (b.not_kept s).1)
            (hs.finished_of_firm_path b.waits (by simp [running]))
        simp only [running, hmade, Phase.past_running, Phase.past_made, forall_const, not_not,
          not_true_eq_false, false_imp_iff, and_true, List.mem_cons, Function.update_self,
          Function.update_of_ne b.ne] at ih ⊢
        rw [hrc] at hsuf
        rcases suffix_split hsuf with ⟨he, hdr⟩ | ⟨rfl, rfl⟩ | ⟨he, hsub⟩
        · rw [hA' e he _ _ does, ih]
          simp [hdr]
        · simp [hdB, b.closes _ _ does]
        · have hne : d ≠ e := by rintro rfl; exact hdB he
          have hdr : d ∉ rest := fun h => hdB (hsub h)
          have : ¬ Q s.world := by rw [ih]; simp [hne, hdr]
          simp [hdr, hB' e he _ _ does this]
      · rw [b.others m eo ec wanted e (hsuf.subset (by simp)) _ _ does]
        simpa [Function.update_of_ne (Ne.symm eo), Function.update_of_ne (Ne.symm ec)] using ih

/-- **The condition holds exactly between its two commands**, whatever held before. -/
theorem Bracket.iff_of_past (b : S.Bracket Q opener closer c d) {w : W} {s : State ν κ W}
    (h : S.Reachable w s) (past : (s.phase opener).Past c) :
    Q s.world ↔ ¬ (s.phase closer).Past d :=
  (b.iff_and_imp h).1 past

/-- Where the condition does not hold in the beginning, it holds between its two commands and
nowhere else. -/
theorem Bracket.iff_past (b : S.Bracket Q opener closer c d) {w : W} (hw : ¬ Q w)
    {s : State ν κ W} (h : S.Reachable w s) :
    Q s.world ↔ (s.phase opener).Past c ∧ ¬ (s.phase closer).Past d := by
  by_cases past : (s.phase opener).Past c
  · rw [b.iff_of_past h past]
    simp [past]
  · have : ¬ Q s.world := fun hQ => hw ((b.iff_and_imp h).2 past hQ)
    simp [past, this]

end System

end Make
