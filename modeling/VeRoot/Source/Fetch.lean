import VeRoot.Make.Recipe

/-!
# Fetching sources

`git_clone`, `get_archive`, `get_archive_dl`, `get_image_xz` and `get_file` of
`mk/environment.mk` each generate one rule for a file `SRCDEST`.  Make takes the
existence of that file for the whole recipe having been executed, but `wget -O` and
`git checkout` create it in the middle.  And `git remote add` fails when an earlier
attempt has come past it.

## Main definitions

* `FetchCmd`, `Outcome`, `Source` — the commands, how they may end, and the state.
* `Macro`, `Macro.prepare`, `Macro.commit`, `Macro.complete` — the recipes, in three parts.
* `FailureAtomic` — what is wanted of the state.
* `Benign` — histories in which no attempt fails past its committing command.
* `failureAtomic_iff` — the main result.
-/

namespace VeRoot

open Make

/-- The commands of the five recipes. -/
inductive FetchCmd
  | echo | mkdir
  | gitInit | gitRemoteAdd
  | gitFetchDepth | gitFetch
  | gitCheckout | gitCheckoutFetchHead
  | gitSubmoduleUpdate | chown
  | wget | tar | unxz
  deriving DecidableEq, Repr

/-- How a command ends, as far as the network, the remote and the machine decide.  A
failure is `late` if the command's effect on the directory has already taken place. -/
inductive Outcome
  | ok
  | fail (late : Bool)
  deriving DecidableEq, Repr

/-- A source directory. -/
structure Source where
  /-- The directory is a git repository. -/
  repo : Bool := false
  /-- The remote `origin` exists. -/
  remote : Bool := false
  /-- `SRCDEST` exists. -/
  srcdest : Bool := false
  /-- The unpacked image exists. -/
  image : Bool := false
  /-- Some attempt has executed the whole recipe successfully. -/
  done : Bool := false
  deriving DecidableEq, Repr

namespace FetchCmd

/-- What the command leaves behind. -/
def effect : FetchCmd → Source → Source
  | .gitInit, σ => { σ with repo := true }
  | .gitRemoteAdd, σ => { σ with remote := true }
  | .gitCheckout, σ | .gitCheckoutFetchHead, σ => { σ with srcdest := true }
  | .wget, σ => { σ with srcdest := true }
  | .unxz, σ => { σ with image := true }
  | _, σ => σ

/-- The command fails whatever else works: `git remote add` outside a repository or when
the remote exists, `unxz -k` when its output exists. -/
def blocked : FetchCmd → Source → Bool
  | .gitRemoteAdd, σ => !σ.repo || σ.remote
  | .unxz, σ => σ.image
  | _, _ => false

/-- One command in an attempt. -/
def run (o : FetchCmd → Outcome) (c : FetchCmd) (σ : Source) : Source × Bool :=
  if c.blocked σ then (σ, false)
  else match o c with
    | .ok => (c.effect σ, true)
    | .fail late => (if late then c.effect σ else σ, false)

end FetchCmd

/-- A line of a recipe: a command, or `c || d`. -/
inductive Line
  | one (c : FetchCmd)
  | orElse (c d : FetchCmd)
  deriving DecidableEq, Repr

namespace Line

/-- One line in an attempt. -/
def run (o : FetchCmd → Outcome) : Line → Source → Source × Bool
  | .one c, σ => c.run o σ
  | .orElse c d, σ => if (c.run o σ).2 then c.run o σ else d.run o (c.run o σ).1

/-- The commands of a line. -/
def cmds : Line → List FetchCmd
  | .one c => [c]
  | .orElse c d => [c, d]

/-- The line works, as far as the outcomes go. -/
def Works (o : FetchCmd → Outcome) : Line → Prop
  | .one c => o c = .ok
  | .orElse c d => o c = .ok ∨ o d = .ok

end Line

/-- The five macros. -/
inductive Macro
  | gitClone | getArchive | getArchiveDl | getImageXz | getFile
  deriving DecidableEq, Repr

namespace Macro

/-- The recipe of `SRCDEST`, when it does not exist while the makefile is read. -/
def recipe (windows : Bool) : Macro → List Line
  | .gitClone =>
    [.one .echo, .one .gitInit, .one .gitRemoteAdd, .orElse .gitFetchDepth .gitFetch,
      .orElse .gitCheckout .gitCheckoutFetchHead, .one .gitSubmoduleUpdate] ++
      if windows then [] else [.one .chown]
  | .getArchive => [.one .echo, .one .mkdir, .one .wget, .one .tar]
  | .getArchiveDl | .getFile => [.one .echo, .one .mkdir, .one .wget]
  | .getImageXz => [.one .echo, .one .mkdir, .one .wget, .one .unxz]

/-- The first command whose effect a later attempt cannot live with. -/
def commit : Macro → FetchCmd
  | .gitClone => .gitRemoteAdd
  | .getArchive | .getArchiveDl | .getImageXz | .getFile => .wget

/-- The lines before that command. -/
def prepare : Macro → List Line
  | .gitClone => [.one .echo, .one .gitInit]
  | .getArchive | .getArchiveDl | .getImageXz | .getFile => [.one .echo, .one .mkdir]

/-- The lines after it. -/
def complete (windows : Bool) : Macro → List Line
  | .gitClone =>
    [.orElse .gitFetchDepth .gitFetch, .orElse .gitCheckout .gitCheckoutFetchHead,
      .one .gitSubmoduleUpdate] ++ if windows then [] else [.one .chown]
  | .getArchive => [.one .tar]
  | .getArchiveDl | .getFile => []
  | .getImageXz => [.one .unxz]

theorem recipe_eq (windows : Bool) (m : Macro) :
    m.recipe windows = m.prepare ++ .one m.commit :: m.complete windows := by
  cases m <;> rfl

end Macro

/-- Make runs the recipe only when `SRCDEST` does not exist, and keeps what a failed
attempt leaves. -/
def attempt (windows : Bool) (m : Macro) (σ : Source) (o : FetchCmd → Outcome) : Source :=
  if σ.srcdest then σ
  else
    let r := runRecipe (Line.run o) (m.recipe windows) σ
    if r.2 then { r.1 with done := true } else r.1

/-- The directory after a history of attempts. -/
def after (windows : Bool) (m : Macro) (h : List (FetchCmd → Outcome)) : Source :=
  h.foldl (attempt windows m) {}

/-- An up-to-date source is complete, and an attempt on any other succeeds if nothing
outside goes wrong. -/
def FailureAtomic (windows : Bool) (m : Macro) (σ : Source) : Prop :=
  (σ.srcdest = true → σ.done = true) ∧
    (σ.srcdest = false → (runRecipe (Line.run fun _ => .ok) (m.recipe windows) σ).2 = true)

instance (windows : Bool) (m : Macro) (σ : Source) : Decidable (FailureAtomic windows m σ) :=
  inferInstanceAs (Decidable (_ ∧ _))

/-- Every line of the recipe works. -/
def Succeeds (windows : Bool) (m : Macro) (o : FetchCmd → Outcome) : Prop :=
  ∀ l ∈ m.recipe windows, l.Works o

/-- The attempt fails before the committing command, or by it and without its effect. -/
def FailsEarly (m : Macro) (o : FetchCmd → Outcome) : Prop :=
  (∃ l ∈ m.prepare, ¬ l.Works o) ∨ o m.commit = .fail false

/-- Every attempt up to the first successful one fails early. -/
def Benign (windows : Bool) (m : Macro) : List (FetchCmd → Outcome) → Prop
  | [] => True
  | o :: h => Succeeds windows m o ∨ (FailsEarly m o ∧ Benign windows m h)

/-- Nothing that a later attempt would trip over is there. -/
def Fresh (σ : Source) : Prop :=
  σ.remote = false ∧ σ.srcdest = false ∧ σ.image = false ∧ σ.done = false

/-- An incomplete source that make takes for complete, or that cannot be completed. -/
def Stuck (m : Macro) (σ : Source) : Prop :=
  σ.done = false ∧ (σ.srcdest = true ∨ (m = .gitClone ∧ σ.remote = true))

section Fetch

variable {windows : Bool} {m : Macro} {o : FetchCmd → Outcome} {σ : Source} {c : FetchCmd}
  {l : Line}

/-! ## Single lines -/

theorem FetchCmd.run_fst (c : FetchCmd) (o : FetchCmd → Outcome) (σ : Source) :
    (c.run o σ).1 = σ ∨ (c.run o σ).1 = c.effect σ := by
  unfold FetchCmd.run
  split
  · exact .inl rfl
  · split
    · exact .inr rfl
    · split
      · exact .inr rfl
      · exact .inl rfl

theorem FetchCmd.run_of_not_blocked (h : c.blocked σ = false) :
    (c.run o σ).2 = true ↔ o c = .ok := by
  unfold FetchCmd.run
  cases hc : o c <;> simp [h]

/-- What the effects of its commands preserve, a line preserves. -/
theorem Line.run_preserves {P : Source → Prop}
    (h : ∀ c ∈ l.cmds, ∀ σ, P σ → P (FetchCmd.effect c σ)) (hσ : P σ) : P (l.run o σ).1 := by
  have one : ∀ c ∈ l.cmds, ∀ σ, P σ → P (FetchCmd.run o c σ).1 := by
    intro c hc σ hσ
    rcases FetchCmd.run_fst c o σ with e | e <;> rw [e]
    · exact hσ
    · exact h c hc σ hσ
  cases l with
  | one c => exact one c (by simp [Line.cmds]) σ hσ
  | orElse c d =>
    simp only [Line.run]
    split
    · exact one c (by simp [Line.cmds]) σ hσ
    · exact one d (by simp [Line.cmds]) _ (one c (by simp [Line.cmds]) σ hσ)

/-- A line none of whose commands is blocked succeeds if it works. -/
theorem Line.run_of_not_blocked (h : ∀ c ∈ l.cmds, ∀ σ, c.blocked σ = false) :
    (l.run o σ).2 = true ↔ l.Works o := by
  cases l with
  | one c => exact FetchCmd.run_of_not_blocked (h c (by simp [Line.cmds]) σ)
  | orElse c d =>
    have hc : (c.run o σ).2 = true ↔ o c = .ok :=
      FetchCmd.run_of_not_blocked (h c (by simp [Line.cmds]) σ)
    have hd : (d.run o (c.run o σ).1).2 = true ↔ o d = .ok :=
      FetchCmd.run_of_not_blocked (h d (by simp [Line.cmds]) _)
    rw [Line.Works, ← hc, ← hd]
    simp only [Line.run]
    cases hrun : (c.run o σ).2 <;> simp [hrun]

theorem Stuck.run (h : Stuck m σ) : Stuck m (l.run o σ).1 := by
  refine Line.run_preserves (fun c _ σ h => ?_) h
  cases c <;> first | exact h | exact ⟨h.1, .inl rfl⟩ | exact ⟨h.1, h.2.imp_right fun h => ⟨h.1, rfl⟩⟩

/-- A stuck source violates what is wanted. -/
theorem Stuck.not_failureAtomic (h : Stuck m σ) : ¬ FailureAtomic windows m σ := by
  obtain ⟨hdone, hs⟩ := h
  rintro ⟨hcomplete, hretry⟩
  cases hdest : σ.srcdest with
  | true => simp [hcomplete hdest] at hdone
  | false =>
    obtain ⟨rfl, hremote⟩ : m = .gitClone ∧ σ.remote = true := by simpa [hdest] using hs
    have := hretry hdest
    simp [Macro.recipe, runRecipe, Line.run, FetchCmd.run, FetchCmd.blocked, FetchCmd.effect,
      hremote] at this

/-! ## The three parts of a recipe -/

/-- The preparing lines leave the directory fresh, and nothing but the outcomes decides
whether they succeed. -/
theorem run_prepare (hl : l ∈ m.prepare) (hσ : Fresh σ) :
    Fresh (l.run o σ).1 ∧ ((l.run o σ).2 = true ↔ l.Works o) := by
  have harmless : ∀ c ∈ l.cmds, c = .echo ∨ c = .mkdir ∨ c = .gitInit := by
    cases m <;> simp only [Macro.prepare, List.mem_cons, List.not_mem_nil, or_false] at hl <;>
      rcases hl with rfl | rfl <;> simp [Line.cmds]
  constructor
  · refine Line.run_preserves (fun c hc σ hσ => ?_) hσ
    rcases harmless c hc with rfl | rfl | rfl <;> exact hσ
  · refine Line.run_of_not_blocked fun c hc σ => ?_
    rcases harmless c hc with rfl | rfl | rfl <;> rfl

/-- After them the committing command can run. -/
theorem commit_not_blocked (hσ : Fresh σ) (hw : ∀ l ∈ m.prepare, l.Works o) :
    m.commit.blocked (runRecipe (Line.run o) m.prepare σ).1 = false := by
  cases m with
  | gitClone =>
    have he : o .echo = .ok := hw (.one .echo) (by simp [Macro.prepare])
    have hi : o .gitInit = .ok := hw (.one .gitInit) (by simp [Macro.prepare])
    simp [Macro.prepare, Macro.commit, runRecipe, Line.run, FetchCmd.run, FetchCmd.blocked,
      FetchCmd.effect, he, hi, hσ.1]
  | _ => rfl

/-- The committing command leaves the source stuck until the recipe is complete. -/
theorem commit_stuck (hσ : Fresh σ) : Stuck m (m.commit.effect σ) := by
  cases m with
  | gitClone => exact ⟨hσ.2.2.2, .inr ⟨rfl, rfl⟩⟩
  | _ => exact ⟨hσ.2.2.2, .inl rfl⟩

/-- Unless the unpacked image exists, the outcomes alone decide whether the completing
lines succeed. -/
theorem run_complete (hσ : σ.image = false) :
    (runRecipe (Line.run o) (m.complete windows) σ).2 = true ↔
      ∀ l ∈ m.complete windows, l.Works o := by
  by_cases hm : m = .getImageXz
  · subst hm
    have hunxz : (FetchCmd.run o .unxz σ).2 = true ↔ o .unxz = .ok :=
      FetchCmd.run_of_not_blocked hσ
    simpa [Macro.complete, runRecipe_cons_success_iff, Line.run, Line.Works] using hunxz
  · -- no other command is ever blocked here
    refine runRecipe_success_iff (P := fun _ => True) (fun l hl σ _ => ⟨trivial, ?_⟩) trivial
    refine Line.run_of_not_blocked fun c hc σ => ?_
    have hc : c ∈ (m.complete windows).flatMap Line.cmds := List.mem_flatMap.2 ⟨l, hl, hc⟩
    cases m with
    | getImageXz => exact absurd rfl hm
    | gitClone =>
      cases windows <;>
        simp only [Macro.complete, Line.cmds, List.flatMap_cons, List.flatMap_nil, List.cons_append,
          List.nil_append, List.mem_cons, List.not_mem_nil, or_false, if_true, if_false,
          Bool.false_eq_true] at hc <;>
        revert hc <;> cases c <;> simp [FetchCmd.blocked]
    | getArchive | getArchiveDl | getFile =>
      revert hc
      cases c <;> simp [Macro.complete, Line.cmds, FetchCmd.blocked]

/-- Nothing removes `SRCDEST`. -/
theorem srcdest_run {ls : List Line} (hσ : σ.srcdest = true) :
    (runRecipe (Line.run o) ls σ).1.srcdest = true := by
  refine runRecipe_invariant (P := fun σ : Source => σ.srcdest = true) (fun l _ σ h => ?_) hσ
  refine Line.run_preserves (P := fun σ : Source => σ.srcdest = true) (fun c _ σ h => ?_) h
  cases c <;> first | exact h | rfl

/-- The checkout writes the index of the repository. -/
theorem srcdest_checkout
    (h : ((Line.orElse .gitCheckout .gitCheckoutFetchHead).run o σ).2 = true) :
    ((Line.orElse .gitCheckout .gitCheckoutFetchHead).run o σ).1.srcdest = true := by
  have one : ∀ c σ, c = FetchCmd.gitCheckout ∨ c = FetchCmd.gitCheckoutFetchHead →
      (FetchCmd.run o c σ).2 = true → (FetchCmd.run o c σ).1.srcdest = true := by
    rintro c σ (rfl | rfl) h <;>
      simp only [FetchCmd.run, FetchCmd.blocked, Bool.false_eq_true, if_false] at h ⊢ <;>
      split at h <;> simp_all [FetchCmd.effect]
  simp only [Line.run] at h ⊢
  split at h
  · rw [if_pos ‹_›]
    exact one _ _ (.inl rfl) h
  · rw [if_neg ‹_›]
    exact one _ _ (.inr rfl) h

/-- A completed source is up to date. -/
theorem srcdest_complete (h : Stuck m σ)
    (hok : (runRecipe (Line.run o) (m.complete windows) σ).2 = true) :
    (runRecipe (Line.run o) (m.complete windows) σ).1.srcdest = true := by
  rcases h.2 with hsrc | ⟨rfl, -⟩
  · exact srcdest_run hsrc
  · have hfetch := (runRecipe_cons_success_iff.1 hok)
    have hcheckout := runRecipe_cons_success_iff.1 hfetch.2
    rw [Macro.complete, List.cons_append, runRecipe_cons_of_success hfetch.1, List.cons_append,
      runRecipe_cons_of_success hcheckout.1]
    exact srcdest_run (srcdest_checkout hcheckout.1)

/-! ## One attempt on a fresh directory -/

theorem fresh_prepare (hσ : Fresh σ) :
    Fresh (runRecipe (Line.run o) m.prepare σ).1 ∧
      ((runRecipe (Line.run o) m.prepare σ).2 = true ↔ ∀ l ∈ m.prepare, l.Works o) :=
  ⟨runRecipe_invariant (fun _ hl _ hσ => (run_prepare hl hσ).1) hσ,
    runRecipe_success_iff (fun _ hl _ hσ => run_prepare hl hσ) hσ⟩

theorem succeeds_iff :
    Succeeds windows m o ↔
      (∀ l ∈ m.prepare, l.Works o) ∧ o m.commit = .ok ∧ ∀ l ∈ m.complete windows, l.Works o := by
  rw [Succeeds, Macro.recipe_eq, List.forall_mem_append, List.forall_mem_cons]
  rfl

/-- A failure before the committing command has happened leaves the directory fresh. -/
theorem FailsEarly.run_recipe (windows : Bool) (h : FailsEarly m o) (hσ : Fresh σ) :
    Fresh (runRecipe (Line.run o) (m.recipe windows) σ).1 ∧
      (runRecipe (Line.run o) (m.recipe windows) σ).2 = false := by
  obtain ⟨hfresh, hiff⟩ := fresh_prepare (m := m) (o := o) hσ
  rw [Macro.recipe_eq, runRecipe_append]
  by_cases hw : ∀ l ∈ m.prepare, l.Works o
  · have hcommit : o m.commit = .fail false := by
      rcases h with ⟨l, hl, hn⟩ | h
      · exact absurd (hw l hl) hn
      · exact h
    have hrun : Line.run o (.one m.commit) (runRecipe (Line.run o) m.prepare σ).1 =
        ((runRecipe (Line.run o) m.prepare σ).1, false) := by
      simp [Line.run, FetchCmd.run, hcommit]
    rw [if_pos (hiff.2 hw), runRecipe_cons_of_failure (by rw [hrun]), hrun]
    exact ⟨hfresh, rfl⟩
  · rw [if_neg fun hok => hw (hiff.1 hok)]
    exact ⟨hfresh, rfl⟩

/-- Otherwise the source is stuck, and up to date if the whole recipe worked. -/
theorem run_recipe_of_not_failsEarly (windows : Bool) (h : ¬ FailsEarly m o) (hσ : Fresh σ) :
    Stuck m (runRecipe (Line.run o) (m.recipe windows) σ).1 ∧
      ((runRecipe (Line.run o) (m.recipe windows) σ).2 = true ↔ Succeeds windows m o) ∧
      ((runRecipe (Line.run o) (m.recipe windows) σ).2 = true →
        (runRecipe (Line.run o) (m.recipe windows) σ).1.srcdest = true) := by
  obtain ⟨hprep, hcommit⟩ : (∀ l ∈ m.prepare, l.Works o) ∧ o m.commit ≠ .fail false := by
    simpa [FailsEarly] using h
  obtain ⟨hfresh, hiff⟩ := fresh_prepare (m := m) (o := o) hσ
  have hblock := commit_not_blocked hσ hprep
  have hstuck := commit_stuck (m := m) hfresh
  have himage : (m.commit.effect (runRecipe (Line.run o) m.prepare σ).1).image = false := by
    cases m <;> exact hfresh.2.2.1
  rw [succeeds_iff, Macro.recipe_eq, runRecipe_append, if_pos (hiff.2 hprep),
    and_iff_right hprep]
  cases ho : o m.commit with
  | ok =>
    have hrun : Line.run o (.one m.commit) (runRecipe (Line.run o) m.prepare σ).1 =
        (m.commit.effect (runRecipe (Line.run o) m.prepare σ).1, true) := by
      simp [Line.run, FetchCmd.run, ho, hblock]
    rw [runRecipe_cons_of_success (by rw [hrun]), hrun]
    refine ⟨runRecipe_invariant (fun _ _ _ h => h.run) hstuck, ?_, srcdest_complete hstuck⟩
    rw [run_complete himage]
    simp
  | fail late =>
    cases late with
    | false => exact absurd ho hcommit
    | true =>
      have hrun : Line.run o (.one m.commit) (runRecipe (Line.run o) m.prepare σ).1 =
          (m.commit.effect (runRecipe (Line.run o) m.prepare σ).1, false) := by
        simp [Line.run, FetchCmd.run, ho, hblock]
      rw [runRecipe_cons_of_failure (by rw [hrun]), hrun]
      exact ⟨hstuck, by simp, by simp⟩

theorem Succeeds.not_failsEarly (h : Succeeds windows m o) : ¬ FailsEarly m o := by
  obtain ⟨hprep, hcommit, -⟩ := succeeds_iff.1 h
  rintro (⟨l, hl, hn⟩ | hn)
  · exact hn (hprep l hl)
  · simp [hn] at hcommit

/-! ## Histories -/

theorem Succeeds.attempt (h : Succeeds windows m o) (hσ : Fresh σ) :
    (attempt windows m σ o).srcdest = true ∧ (attempt windows m σ o).done = true := by
  obtain ⟨-, hiff, hdest⟩ := run_recipe_of_not_failsEarly windows h.not_failsEarly hσ
  have hok := hiff.2 h
  simp [VeRoot.attempt, hσ.2.1, hok, hdest hok]

theorem FailsEarly.attempt (h : FailsEarly m o) (hσ : Fresh σ) :
    Fresh (attempt windows m σ o) := by
  obtain ⟨hfresh, hfail⟩ := h.run_recipe windows hσ
  simpa [VeRoot.attempt, hσ.2.1, hfail] using hfresh

theorem stuck_attempt (hs : ¬ Succeeds windows m o) (he : ¬ FailsEarly m o) (hσ : Fresh σ) :
    Stuck m (attempt windows m σ o) := by
  obtain ⟨hstuck, hiff, -⟩ := run_recipe_of_not_failsEarly windows he hσ
  simpa [VeRoot.attempt, hσ.2.1, mt hiff.1 hs] using hstuck

/-- An up-to-date source is never touched again. -/
theorem foldl_attempt (hσ : σ.srcdest = true) (h : List (FetchCmd → Outcome)) :
    h.foldl (attempt windows m) σ = σ := by
  induction h with
  | nil => rfl
  | cons o h ih => rw [List.foldl_cons, attempt, if_pos hσ, ih]

/-- A fresh directory is as wanted. -/
theorem Fresh.failureAtomic (hσ : Fresh σ) : FailureAtomic windows m σ := by
  have hearly : ¬ FailsEarly m fun _ => .ok := by
    rintro (⟨l, -, hn⟩ | hn)
    · cases l <;> simp [Line.Works] at hn
    · simp at hn
  have hsucc : Succeeds windows m fun _ => .ok := by
    intro l _
    cases l <;> simp [Line.Works]
  exact ⟨by simp [hσ.2.1], fun _ => (run_recipe_of_not_failsEarly windows hearly hσ).2.1.2 hsucc⟩

theorem failureAtomic_iff_of_fresh (h : List (FetchCmd → Outcome)) (hσ : Fresh σ) :
    (∀ p, p <+: h → FailureAtomic windows m (p.foldl (attempt windows m) σ)) ↔
      Benign windows m h := by
  induction h generalizing σ with
  | nil => simpa [Benign] using hσ.failureAtomic
  | cons o h ih =>
    have hsplit : (∀ p, p <+: o :: h → FailureAtomic windows m (p.foldl (attempt windows m) σ)) ↔
        ∀ p, p <+: h →
          FailureAtomic windows m (p.foldl (attempt windows m) (attempt windows m σ o)) := by
      simp only [List.prefix_cons_iff, forall_eq_or_imp, forall_exists_index, and_imp]
      constructor
      · intro hall p hp
        exact hall.2 _ p rfl hp
      · rintro hall
        refine ⟨hσ.failureAtomic, ?_⟩
        rintro _ p rfl hp
        exact hall p hp
    rw [hsplit, Benign]
    by_cases hs : Succeeds windows m o
    · obtain ⟨hdest, hdone⟩ := hs.attempt hσ
      simp only [hs, true_or, iff_true]
      intro p _
      rw [foldl_attempt hdest]
      exact ⟨fun _ => hdone, by simp [hdest]⟩
    · by_cases he : FailsEarly m o
      · rw [ih (he.attempt hσ)]
        simp [hs, he]
      · simp only [hs, he, false_and, or_false, iff_false]
        intro hall
        exact (stuck_attempt hs he hσ).not_failureAtomic (hall [] (by simp))

end Fetch

/-- **Fetching is failure-atomic in a history exactly if the history is benign**: no attempt
fails past the command that commits it before one has succeeded. -/
theorem failureAtomic_iff (windows : Bool) (m : Macro) (h : List (FetchCmd → Outcome)) :
    (∀ p, p <+: h → FailureAtomic windows m (after windows m p)) ↔ Benign windows m h :=
  failureAtomic_iff_of_fresh h ⟨rfl, rfl, rfl, rfl⟩

/-- The given command fails with its effect done, and all others work. -/
def failing (c : FetchCmd) : FetchCmd → Outcome :=
  fun d => if d = c then .fail true else .ok

/-- One failed download and make takes what there is for the file.  One failed extraction,
submodule update or `chown`, and for a repository one failed fetch, are no better. -/
theorem not_failureAtomic_after :
    ¬ FailureAtomic false .getFile (after false .getFile [failing .wget]) ∧
    ¬ FailureAtomic false .getArchiveDl (after false .getArchiveDl [failing .wget]) ∧
    ¬ FailureAtomic false .getArchive (after false .getArchive [failing .tar]) ∧
    ¬ FailureAtomic false .getImageXz (after false .getImageXz [failing .unxz]) ∧
    ¬ FailureAtomic false .gitClone (after false .gitClone [failing .gitSubmoduleUpdate]) ∧
    ¬ FailureAtomic false .gitClone (after false .gitClone [failing .chown]) ∧
    ¬ FailureAtomic false .gitClone (after false .gitClone [fun c =>
      if c = .gitFetchDepth ∨ c = .gitFetch then .fail false else .ok]) := by
  decide

end VeRoot
