import VeRoot.Unix.Errexit
import VeRoot.Unix.Git

/-!
# What git_clone checks out

The recipe that `git_clone` of `mk/environment.mk` generates for a checkout that is not there
yet.  It fetches the ref that is asked for or else everything, and it checks out the ref or
else `FETCH_HEAD`.  After a fetch of everything `FETCH_HEAD` has nothing to do with the ref.

## Main definitions

* `GitCmd`, `GitCmd.Does` — the commands, and what they may do; fetching may always fail.
* `gitCloneRecipe` — the recipe.
* `ChecksOut` — a recipe that succeeds has checked out what the ref denotes.
* `checksOut_iff` — the main result; `checksOut_iff_of_plain` and `checksOut_iff_of_isId` say
  what it comes to for a plain name and for a full id.
-/

namespace VeRoot

open Unix Git

/-- A command of the recipe. -/
inductive GitCmd
  | echo | init
  /-- `cd $(SOURCE)/$(L)/checkout-dir` -/
  | cd
  | remoteAdd
  /-- `git fetch --depth 1 origin r` -/
  | fetch (r : Text)
  /-- `git fetch origin` -/
  | fetchAll
  | checkout (r : Text)
  /-- `git submodule update --init --recursive` -/
  | submodule
  | chown
  deriving DecidableEq, Repr

/-- What a command may do with the remote `R`.  A fetch fails when the network does, and then
it has got nothing. -/
inductive GitCmd.Does (R : Remote) : GitCmd → LocalRepo → LocalRepo → Bool → Prop
  | echo (s) : Does R .echo s s true
  | init (s) : Does R .init s s true
  | cd (s) : Does R .cd s s true
  | remoteAdd (s) : Does R .remoteAdd s s true
  | fetch {r ref s} (served : R.wanted r = some ref) : Does R (.fetch r) s (s.fetchRef ref) true
  | fetchFails (r s) : Does R (.fetch r) s s false
  | fetchAll (s) : Does R .fetchAll s (s.fetchAll R) true
  | fetchAllFails (s) : Does R .fetchAll s s false
  | checkout {r c s} (found : s.target r = some c) :
      Does R (.checkout r) s { s with head := some c } true
  | checkoutFails {r s} (missing : s.target r = none) : Does R (.checkout r) s s false
  | submodule (s b) : Does R .submodule s s b
  | chown (s) : Does R .chown s s true

open AndOr in
/-- The recipe of the `SRCDEST` file, for the ref `r`; `cloned` says that the file was there
when the makefile was read. -/
def gitCloneRecipe (cloned windows : Bool) (r : Text) : List (AndOr GitCmd) :=
  cmd .echo ::
    if cloned then []
    else
      [cmd .init, and (cmd .cd) (cmd .remoteAdd),
        or (and (cmd .cd) (cmd (.fetch r))) (cmd .fetchAll),
        or (and (cmd .cd) (cmd (.checkout r))) (cmd (.checkout "FETCH_HEAD".toList)),
        and (cmd .cd) (cmd .submodule)] ++
      if windows then [] else [cmd .chown]

/-- The recipe can end in `s`, on a fresh checkout. -/
def Clones (R : Remote) (windows : Bool) (r : Text) (s : LocalRepo) (b : Bool) : Prop :=
  Errexit (AndOr.Does (GitCmd.Does R)) (gitCloneRecipe false windows r) {} s b

/-- **If the recipe succeeds, the commit that is checked out is the one the ref denotes.** -/
def ChecksOut (R : Remote) (windows : Bool) (r : Text) : Prop :=
  ∀ s, Clones R windows r s true → ∃ c, R.denotes r = some c ∧ s.head = some c

section Checkout

variable {R : Remote} {windows : Bool} {r : Text} {c : Commit} {s s' : LocalRepo} {b : Bool}
  {x y : AndOr GitCmd} {k : GitCmd}

/-! ## The lines of the recipe -/

/-- Changing the directory succeeds. -/
theorem does_cd_and : AndOr.Does (GitCmd.Does R) (.and (.cmd .cd) (.cmd k)) s s' b ↔
    GitCmd.Does R k s s' b := by
  constructor
  · intro h
    cases h with
    | andStop left =>
      cases left with
      | cmd left => cases left
    | andNext left right =>
      cases left with
      | cmd left =>
        cases left
        exact AndOr.cmd_iff.mp right
  · intro h
    exact .andNext (.cmd (.cd s)) (.cmd h)

/-- A line with a fallback succeeds by its first command or by its second. -/
theorem does_or {k' : GitCmd} :
    AndOr.Does (GitCmd.Does R) (.or (.and (.cmd .cd) (.cmd k)) (.cmd k')) s s' true ↔
      GitCmd.Does R k s s' true ∨ ∃ t, GitCmd.Does R k s t false ∧ GitCmd.Does R k' t s' true := by
  constructor
  · intro h
    cases h with
    | orStop left => exact .inl (does_cd_and.mp left)
    | orNext left right => exact .inr ⟨_, does_cd_and.mp left, AndOr.cmd_iff.mp right⟩
  · rintro (h | ⟨t, left, right⟩)
    · exact .orStop (does_cd_and.mpr h)
    · exact .orNext (does_cd_and.mpr left) (.cmd right)

/-- **The repository after the fetches**: with the ref, or with everything. -/
theorem does_fetch : AndOr.Does (GitCmd.Does R)
      (.or (.and (.cmd .cd) (.cmd (.fetch r))) (.cmd .fetchAll)) s s' true ↔
    (∃ ref, R.wanted r = some ref ∧ s' = s.fetchRef ref) ∨ s' = s.fetchAll R := by
  rw [does_or]
  constructor
  · rintro (h | ⟨t, left, right⟩)
    · cases h with
      | fetch served => exact .inl ⟨_, served, rfl⟩
    · cases left
      cases right
      exact .inr rfl
  · rintro (⟨ref, served, rfl⟩ | rfl)
    · exact .inl (.fetch served)
    · exact .inr ⟨s, .fetchFails r s, .fetchAll s⟩

/-- **What is checked out**: the ref, or `FETCH_HEAD`. -/
theorem does_checkout : AndOr.Does (GitCmd.Does R)
      (.or (.and (.cmd .cd) (.cmd (.checkout r))) (.cmd (.checkout "FETCH_HEAD".toList)))
      s s' true ↔
    ∃ c, (s.target r).or (s.target "FETCH_HEAD".toList) = some c ∧
      s' = { s with head := some c } := by
  rw [does_or]
  constructor
  · rintro (h | ⟨t, left, right⟩)
    · cases h with
      | checkout found => exact ⟨_, by rw [found, Option.some_or], rfl⟩
    · cases left with
      | checkoutFails missing =>
        cases right with
        | checkout found => exact ⟨_, by rw [missing, Option.none_or, found], rfl⟩
  · rintro ⟨c, hc, rfl⟩
    rcases Option.or_eq_some_iff.mp hc with found | ⟨missing, found⟩
    · exact .inl (.checkout found)
    · exact .inr ⟨s, .checkoutFails missing, .checkout found⟩

/-- The other commands leave the references and the commits alone. -/
theorem does_quiet (hk : k ∈ [GitCmd.echo, .init, .remoteAdd, .submodule, .chown]) :
    GitCmd.Does R k s s' true ↔ s' = s := by
  simp only [List.mem_cons, List.not_mem_nil, or_false] at hk
  constructor
  · intro h
    rcases hk with rfl | rfl | rfl | rfl | rfl <;> cases h <;> rfl
  · rintro rfl
    rcases hk with rfl | rfl | rfl | rfl | rfl
    · exact .echo _
    · exact .init _
    · exact .remoteAdd _
    · exact .submodule _ true
    · exact .chown _

/-- **The recipe, as far as it succeeds.** -/
theorem clones_iff : Clones R windows r s true ↔
    ∃ t c, ((∃ ref, R.wanted r = some ref ∧ t = LocalRepo.fetchRef {} ref) ∨
        t = LocalRepo.fetchAll {} R) ∧
      (t.target r).or (t.target "FETCH_HEAD".toList) = some c ∧ s = { t with head := some c } := by
  have last : ∀ t t' : LocalRepo, Errexit (AndOr.Does (GitCmd.Does R))
      (if windows then [] else [.cmd .chown]) t t' true ↔ t' = t := by
    intro t t'
    split_ifs
    · simp [Errexit.nil_iff]
    · simp [Errexit.cons_success_iff, Errexit.nil_iff, AndOr.cmd_iff, does_quiet]
  simp only [Clones, gitCloneRecipe, Bool.false_eq_true, if_false, List.cons_append,
    List.nil_append, Errexit.cons_success_iff, last, AndOr.cmd_iff, does_cd_and, does_fetch,
    does_checkout, does_quiet (show GitCmd.echo ∈ _ by decide),
    does_quiet (show GitCmd.init ∈ _ by decide),
    does_quiet (show GitCmd.remoteAdd ∈ _ by decide),
    does_quiet (show GitCmd.submodule ∈ _ by decide), exists_eq_left]
  constructor
  · rintro ⟨t, ht, _, ⟨c, hc, rfl⟩, rfl⟩
    exact ⟨t, c, ht, hc, rfl⟩
  · rintro ⟨t, c, ht, hc, rfl⟩
    exact ⟨t, ht, _, ⟨c, hc, rfl⟩, rfl⟩

/-! ## What the ref denotes -/

/-- **After the fetch of the ref alone** the right commit is checked out. -/
theorem denotes_of_fetchRef {ref : Ref} (served : R.wanted r = some ref)
    (h : ((LocalRepo.fetchRef {} ref).target r).or
      ((LocalRepo.fetchRef {} ref).target "FETCH_HEAD".toList) = some c) : R.denotes r = some c := by
  have same : c = ref.2 := by
    rcases Option.or_eq_some_iff.mp h with h | ⟨-, h⟩
    · exact eq_of_target_fetchRef h
    · exact eq_of_target_fetchRef h
  rw [same]
  exact Remote.denotes_of_wanted served

/-- Where there is no branch nothing can be checked out after a fetch of everything. -/
theorem not_keeps_of_nil (hb : R.branches = []) : ¬ R.Keeps r c := by
  intro h
  have mem := h.mem_history
  simp [R.history_nil hb] at mem

/-- **After a fetch of everything** the commit is one that is on a branch, or the first branch. -/
theorem fetchAll_eq_some_iff :
    ((LocalRepo.fetchAll {} R).target r).or
        ((LocalRepo.fetchAll {} R).target "FETCH_HEAD".toList) = some c ↔
      R.Keeps r c ∨ (∀ d, ¬ R.Keeps r d) ∧ ∃ b, R.branches.head? = some b ∧ b.2 = c := by
  have unknown : (LocalRepo.fetchAll {} R).target r = none ↔ ∀ d, ¬ R.Keeps r d := by
    rw [Option.eq_none_iff_forall_not_mem]
    exact forall_congr' fun d => not_congr target_fetchAll_iff
  have head : (LocalRepo.fetchAll {} R).target "FETCH_HEAD".toList = some c ↔
      ∃ b, R.branches.head? = some b ∧ b.2 = c := by
    constructor
    · intro h
      cases hb : R.branches with
      | nil => exact absurd (target_fetchAll_iff.mp h) (not_keeps_of_nil hb)
      | cons b bs =>
        have first := target_fetchHead (s := LocalRepo.fetchAll {} R) (c := b.2)
          (by simp [LocalRepo.fetchAll, hb])
        rw [h] at first
        exact ⟨b, rfl, (Option.some_inj.mp first).symm⟩
    · rintro ⟨b, hb, rfl⟩
      exact target_fetchHead (by simp [LocalRepo.fetchAll, hb])
  rw [Option.or_eq_some_iff, target_fetchAll_iff, unknown, head]

/-- What is checked out after a fetch of everything is on a branch. -/
theorem mem_history_of_fetchAll
    (h : ((LocalRepo.fetchAll {} R).target r).or
      ((LocalRepo.fetchAll {} R).target "FETCH_HEAD".toList) = some c) : c ∈ R.history := by
  rcases fetchAll_eq_some_iff.mp h with known | ⟨-, b, first, rfl⟩
  · exact known.mem_history
  · exact R.branch_mem b (List.mem_of_mem_head? first)

/-- Where there is a branch, a fetch of everything leads somewhere. -/
theorem exists_fetchAll (hb : R.branches ≠ []) :
    ∃ c, ((LocalRepo.fetchAll {} R).target r).or
      ((LocalRepo.fetchAll {} R).target "FETCH_HEAD".toList) = some c := by
  obtain ⟨b, bs, hb⟩ := List.exists_cons_of_ne_nil hb
  by_cases known : ∃ d, R.Keeps r d
  · obtain ⟨d, hd⟩ := known
    exact ⟨d, fetchAll_eq_some_iff.mpr (.inl hd)⟩
  · exact ⟨b.2, fetchAll_eq_some_iff.mpr (.inr ⟨not_exists.mp known, b, by simp [hb], rfl⟩)⟩

/-- **It is the fetch of everything that has to lead to the right commit.** -/
theorem checksOut_iff_fetchAll : ChecksOut R windows r ↔
    ∀ c, ((LocalRepo.fetchAll {} R).target r).or
      ((LocalRepo.fetchAll {} R).target "FETCH_HEAD".toList) = some c → R.denotes r = some c := by
  constructor
  · intro h c hc
    obtain ⟨d, hd, hhead⟩ := h _ (clones_iff.mpr ⟨_, c, .inr rfl, hc, rfl⟩)
    obtain rfl : c = d := by simpa using hhead
    exact hd
  · intro h s hs
    obtain ⟨t, c, ⟨ref, served, rfl⟩ | rfl, hc, rfl⟩ := clones_iff.mp hs
    · exact ⟨c, denotes_of_fetchRef served hc, rfl⟩
    · exact ⟨c, h c hc, rfl⟩

/-- **The recipe checks out what the ref denotes, or fails, exactly if the remote has no branch,
or the ref denotes what it stands for among what is on a branch**; if it stands for nothing there,
it has to denote the first branch. -/
theorem checksOut_iff (R : Remote) (windows : Bool) (r : Text) :
    ChecksOut R windows r ↔
      R.branches = [] ∨ ∃ c, R.denotes r = some c ∧
        (R.Keeps r c ∨ (∀ d, ¬ R.Keeps r d) ∧ ∃ b, R.branches.head? = some b ∧ b.2 = c) := by
  rw [checksOut_iff_fetchAll]
  constructor
  · intro h
    by_cases hb : R.branches = []
    · exact .inl hb
    · obtain ⟨c, hc⟩ := exists_fetchAll (r := r) hb
      exact .inr ⟨c, h c hc, fetchAll_eq_some_iff.mp hc⟩
  · rintro (hb | ⟨d, hd, known⟩) c hc
    · have mem := mem_history_of_fetchAll hc
      simp [R.history_nil hb] at mem
    · rw [fetchAll_eq_some_iff.mpr known] at hc
      exact hc ▸ hd

/-- **For a plain name** the condition is that it is a tag on a branch, or no tag but a branch. -/
theorem checksOut_iff_of_plain (h : R.Plain r) : ChecksOut R windows r ↔
    R.branches = [] ∨ (∃ c ∈ R.history, (r, c) ∈ R.tags) ∨
      (∀ c, (r, c) ∉ R.tags) ∧ ∃ c, (r, c) ∈ R.branches := by
  rw [checksOut_iff_fetchAll]
  constructor
  · intro right
    by_cases hb : R.branches = []
    · exact .inl hb
    · obtain ⟨c, hc⟩ := exists_fetchAll (r := r) hb
      rcases h.denotes_iff.mp (right c hc) with tag | ⟨untagged, branch⟩
      · exact .inr (.inl ⟨c, mem_history_of_fetchAll hc, tag⟩)
      · exact .inr (.inr ⟨untagged, c, branch⟩)
  · rintro (hb | ⟨d, on, tag⟩ | ⟨untagged, d, branch⟩) c hc
    · have mem := mem_history_of_fetchAll hc
      simp [R.history_nil hb] at mem
    all_goals rw [h.denotes_iff]
    all_goals rcases fetchAll_eq_some_iff.mp hc with known | ⟨unknown, -⟩
    · rcases h.keeps_iff.mp known with ⟨mem, -⟩ | ⟨off, -⟩
      · exact .inl mem
      · exact absurd on (off d tag)
    · exact absurd (h.keeps_iff.mpr (.inl ⟨tag, on⟩)) (unknown d)
    · rcases h.keeps_iff.mp known with ⟨mem, -⟩ | ⟨-, mem⟩
      · exact absurd mem (untagged c)
      · exact .inr ⟨untagged, mem⟩
    · have off : ∀ e, (r, e) ∈ R.tags → e ∉ R.history := fun e he => absurd he (untagged e)
      exact absurd (h.keeps_iff.mpr (.inr ⟨off, branch⟩)) (unknown d)

/-- **For a full id** it is that the commit is on a branch. -/
theorem checksOut_iff_of_isId (h : isId r = true) : ChecksOut R windows r ↔
    R.branches = [] ∨ r.map Char.toLower ∈ R.history := by
  have denotes : R.denotes r = if r.map Char.toLower ∈ R.reachable then
      some (r.map Char.toLower) else none := by
    rw [Remote.denotes, lookup, if_pos h]
  rw [checksOut_iff_fetchAll]
  constructor
  · intro right
    by_cases hb : R.branches = []
    · exact .inl hb
    · obtain ⟨c, hc⟩ := exists_fetchAll (r := r) hb
      have hd := right c hc
      rw [denotes] at hd
      split_ifs at hd
      rw [Option.some_inj.mp hd]
      exact .inr (mem_history_of_fetchAll hc)
  · rintro (hb | on) c hc
    · have mem := mem_history_of_fetchAll hc
      simp [R.history_nil hb] at mem
    · rw [fetchAll_eq_some_iff.mpr (.inl (.id h on))] at hc
      rw [denotes, if_pos (R.history_sub on), hc]

/-- **A ref that denotes nothing never makes the recipe fail**, unless the remote has no
branch. -/
theorem not_checksOut_of_denotes_none (hb : R.branches ≠ []) (hr : R.denotes r = none) :
    ¬ ChecksOut R windows r := by
  intro h
  obtain ⟨c, hc⟩ := exists_fetchAll (r := r) hb
  simpa [hr] using checksOut_iff_fetchAll.mp h c hc

/-- Nor does a tag or a commit that is on no branch. -/
theorem not_checksOut_of_not_mem_history (hb : R.branches ≠ []) (hr : R.denotes r = some c)
    (hc : c ∉ R.history) : ¬ ChecksOut R windows r := by
  intro h
  obtain ⟨d, hd⟩ := exists_fetchAll (r := r) hb
  obtain rfl : c = d := by simpa [hr] using checksOut_iff_fetchAll.mp h d hd
  exact hc (mem_history_of_fetchAll hd)

end Checkout

/-! ## A tag that was mistyped -/

/-- A remote with one commit, a branch and a tag. -/
def kernelRemote : Remote where
  branches := [("master".toList, List.replicate 40 'a')]
  tags := [("v3.1".toList, List.replicate 40 'a')]
  defaultBranch := "master".toList
  history := [List.replicate 40 'a']
  reachable := [List.replicate 40 'a']
  serves _ := true

/-- **The recipe succeeds for a tag that does not exist**, and has checked out a branch. -/
theorem not_checksOut_kernel : ¬ ChecksOut kernelRemote false "v3.2".toList := by
  intro h
  have run : Clones kernelRemote false "v3.2".toList _ true :=
    clones_iff.mpr ⟨_, List.replicate 40 'a', .inr rfl, by decide, rfl⟩
  obtain ⟨c, hc, -⟩ := h _ run
  have none : kernelRemote.denotes "v3.2".toList = none := by decide
  rw [none] at hc
  cases hc

end VeRoot
