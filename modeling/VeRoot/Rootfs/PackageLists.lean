import VeRoot.Make.History
import VeRoot.Unix.Errexit
import VeRoot.Unix.Expansion

/-!
# The packages that are installed

`debian-install-packages` puts the package lists of the recipe and of the top recipe together
in `$(ROOTFS)/packages.list`, which `install-packages.sh` reads in the root file system.  Make
decides which commands the recipe has when it reads the makefile: `$(wildcard …)` looks for the
files then.  By the time the recipe is executed, `debian-provision` may have made `$(ROOTFS)`
again, and a run that fails leaves the file behind.

## Main definitions

* `ListCmd`, `ListCmd.Does` — the commands, and what they do to the file.
* `PackageVars`, `beforeChroot`, `afterChroot` — the recipe.
* `InstallRun`, `InstallRun.Happens` — a run of make, from the file that earlier runs left.
* `expectedPackages`, `InstallRun.Exact` — the words of the lists, and the words in the file.
* `exact_along` — the main result.
-/

namespace VeRoot

open Unix Make

/-! ## The recipe -/

/-- The files outside `$(ROOTFS)`. -/
abbrev ListSources := Text → Option Text

/-- A command of the recipe. -/
inductive ListCmd
  /-- `$(QEMU_START)`, `rsync`, `chroot`, or what comes after it. -/
  | other (c : String)
  /-- `rm $(ROOTFS)/packages.list` -/
  | rm
  /-- `-rm $(ROOTFS)/packages.list` -/
  | tryRm
  /-- `cat p >> $(ROOTFS)/packages.list` -/
  | cat (p : Text)
  /-- `(echo) >> $(ROOTFS)/packages.list` -/
  | echo
  deriving DecidableEq, Repr

/-- What is appended to a file, which need not exist. -/
def appended (s : Option Text) (t : Text) : Option Text := some (s.getD [] ++ t)

/-- What a command may do to `$(ROOTFS)/packages.list`.  One that fails while it writes may leave
anything. -/
inductive ListCmd.Does (files : ListSources) : ListCmd → Option Text → Option Text → Bool → Prop
  | other (c s b) : Does files (.other c) s s b
  | rm (t : Text) : Does files .rm (some t) none true
  | rmFails (s) : Does files .rm s s false
  | tryRm (s) : Does files .tryRm s none true
  | tryRmFails (s) : Does files .tryRm s s true
  | cat {p t} (s) (there : files p = some t) : Does files (.cat p) s (appended s t) true
  | catFails (p s s') : Does files (.cat p) s s' false
  | echo (s) : Does files .echo s (appended s ['\n']) true
  | echoFails (s s') : Does files .echo s s' false

/-- `TOP` and `RECIPE`. -/
structure PackageVars where
  top : Text
  recipe : Text
  deriving DecidableEq, Repr

/-- `d/packages.list` -/
def packagesList (d : Text) : Text := d ++ "/packages.list".toList

/-- `d/dev-packages.list` -/
def devPackagesList (d : Text) : Text := d ++ "/dev-packages.list".toList

/-- `ifneq ($(wildcard p),)` -/
def ifThere (file : Option Text) (cs : List ListCmd) : List ListCmd :=
  if file.isSome then cs else []

/-- The commands for a list that is not the first one. -/
def catLine (files : ListSources) (p : Text) : List ListCmd := ifThere (files p) [.echo, .cat p]

/-- The commands up to the `chroot`, if `s` is the file when the makefile is read. -/
def beforeChroot (v : PackageVars) (files : ListSources) (s : Option Text) : List ListCmd :=
  [.other "QEMU_START", .other "rsync install-packages.sh"] ++ ifThere s [.rm] ++
    ifThere (files (packagesList v.recipe)) [.cat (packagesList v.recipe)] ++
    catLine files (devPackagesList v.recipe) ++
    if v.top ≠ v.recipe then
      catLine files (packagesList v.top) ++ catLine files (devPackagesList v.top)
    else []

/-- The commands from the `chroot` on. -/
def afterChroot : List ListCmd :=
  [.other "chroot install-packages.sh", .tryRm, .other "rm install-packages.sh", .other "QEMU_DONE",
    .other "stamp"]

/-! ## Runs of make -/

/-- A run of make. -/
structure InstallRun where
  /-- The package lists during the run. -/
  files : ListSources
  /-- `debian-provision` is executed before this recipe.  No other recipe that comes before it
  touches the file. -/
  provisions : Bool
  /-- `$(ROOTFS)/packages.list` when the `chroot` begins, if it does. -/
  atChroot : Option (Option Text)
  /-- The file that the run leaves. -/
  after : Option Text

namespace InstallRun

/-- The file when the recipe begins. -/
def entered (s : Option Text) (r : InstallRun) : Option Text := if r.provisions then none else s

/-- The run can do this, if earlier ones have left the file `s`: the recipe is not executed, it
stops early, or it reaches the `chroot`. -/
inductive Happens (v : PackageVars) (s : Option Text) : InstallRun → Prop
  | idle (files provisions) :
      Happens v s ⟨files, provisions, none, entered s ⟨files, provisions, none, none⟩⟩
  | stops {files provisions s'}
      (early : Errexit (ListCmd.Does files) (beforeChroot v files s)
        (entered s ⟨files, provisions, none, none⟩) s' false) :
      Happens v s ⟨files, provisions, none, s'⟩
  | reaches {files provisions t s' b}
      (first : Errexit (ListCmd.Does files) (beforeChroot v files s)
        (entered s ⟨files, provisions, none, none⟩) t true)
      (rest : Errexit (ListCmd.Does files) afterChroot t s' b) :
      Happens v s ⟨files, provisions, some t, s'⟩

end InstallRun

/-- The words of a file. -/
def wordsOf (s : Option Text) : List Text := tokens (s.getD [])

/-- **The packages that are listed.** -/
def expectedPackages (v : PackageVars) (files : ListSources) : List Text :=
  wordsOf (files (packagesList v.recipe)) ++ wordsOf (files (devPackagesList v.recipe)) ++
    if v.top ≠ v.recipe then
      wordsOf (files (packagesList v.top)) ++ wordsOf (files (devPackagesList v.top))
    else []

/-- If the run reaches the `chroot`, these are the words of the file. -/
def InstallRun.Exact (v : PackageVars) (r : InstallRun) : Prop :=
  ∀ t, r.atChroot = some t → wordsOf t = expectedPackages v r.files

section PackageLists

variable {v : PackageVars} {files : ListSources} {s s' : Option Text} {p t : Text} {c : String}
  {r : InstallRun} {rs : List InstallRun}

/-! ## One command -/

@[simp] theorem wordsOf_none : wordsOf none = [] := rfl

/-- A newline separates what is appended from what was there. -/
theorem wordsOf_appended_line :
    wordsOf (appended (appended s ['\n']) t) = wordsOf s ++ tokens t := by
  have : s.getD [] ++ ['\n'] ++ t = s.getD [] ++ '\n' :: t := by simp
  rw [wordsOf, appended, appended, Option.getD_some, Option.getD_some, this,
    tokens_append_cons rfl, wordsOf]

theorem other_success_iff : ListCmd.Does files (.other c) s s' true ↔ s' = s := by
  constructor
  · intro h
    cases h
    rfl
  · rintro rfl
    exact .other c _ true

theorem cat_success_iff :
    ListCmd.Does files (.cat p) s s' true ↔ ∃ t, files p = some t ∧ s' = appended s t := by
  constructor
  · intro h
    cases h with
    | cat _ there => exact ⟨_, there, rfl⟩
  · rintro ⟨t, there, rfl⟩
    exact .cat s there

theorem echo_success_iff :
    ListCmd.Does files .echo s s' true ↔ s' = appended s ['\n'] := by
  constructor
  · intro h
    cases h
    rfl
  · rintro rfl
    exact .echo s

/-! ## The parts of the recipe -/

/-- A leftover that was there when the makefile was read is gone, or the recipe stops. -/
theorem eq_none_of_rm {provisions : Bool}
    (h : Errexit (ListCmd.Does files) (ifThere s [.rm])
      (InstallRun.entered s ⟨files, provisions, none, none⟩) s' true) : s' = none := by
  cases s with
  | none =>
    obtain ⟨rfl, -⟩ := Errexit.nil_iff.mp h
    cases provisions <;> rfl
  | some t =>
    obtain ⟨s₁, removed, rest⟩ := Errexit.cons_success_iff.mp h
    obtain ⟨rfl, -⟩ := Errexit.nil_iff.mp rest
    generalize InstallRun.entered (some t) ⟨files, provisions, none, none⟩ = u at removed
    cases removed
    rfl

/-- The first list. -/
theorem wordsOf_cat
    (h : Errexit (ListCmd.Does files) (ifThere (files p) [.cat p]) none s' true) :
    wordsOf s' = wordsOf (files p) := by
  cases hp : files p with
  | none =>
    rw [hp] at h
    obtain ⟨rfl, -⟩ := Errexit.nil_iff.mp h
    rfl
  | some t =>
    rw [hp] at h
    obtain ⟨s₁, written, rest⟩ := Errexit.cons_success_iff.mp h
    obtain ⟨rfl, -⟩ := Errexit.nil_iff.mp rest
    obtain ⟨t', ht', rfl⟩ := cat_success_iff.mp written
    obtain rfl := Option.some.inj (hp.symm.trans ht')
    rfl

/-- Any other list: its words are added. -/
theorem wordsOf_catLine (h : Errexit (ListCmd.Does files) (catLine files p) s s' true) :
    wordsOf s' = wordsOf s ++ wordsOf (files p) := by
  cases hp : files p with
  | none =>
    rw [catLine, hp] at h
    obtain ⟨rfl, -⟩ := Errexit.nil_iff.mp h
    simp
  | some t =>
    rw [catLine, hp] at h
    obtain ⟨s₁, newline, rest⟩ := Errexit.cons_success_iff.mp h
    obtain ⟨s₂, written, rest⟩ := Errexit.cons_success_iff.mp rest
    obtain ⟨rfl, -⟩ := Errexit.nil_iff.mp rest
    obtain rfl := echo_success_iff.mp newline
    obtain ⟨t', ht', rfl⟩ := cat_success_iff.mp written
    obtain rfl := Option.some.inj (hp.symm.trans ht')
    exact wordsOf_appended_line

/-- **The file at the `chroot`**, whatever was there when the makefile was read. -/
theorem wordsOf_beforeChroot {provisions : Bool}
    (h : Errexit (ListCmd.Does files) (beforeChroot v files s)
      (InstallRun.entered s ⟨files, provisions, none, none⟩) s' true) :
    wordsOf s' = expectedPackages v files := by
  obtain ⟨s₄, h, tops⟩ := Errexit.append_success_iff.mp h
  obtain ⟨s₃, h, dev⟩ := Errexit.append_success_iff.mp h
  obtain ⟨s₂, h, list⟩ := Errexit.append_success_iff.mp h
  obtain ⟨s₁, start, removed⟩ := Errexit.append_success_iff.mp h
  have same : s₁ = InstallRun.entered s ⟨files, provisions, none, none⟩ := by
    simpa [Errexit.cons_success_iff, Errexit.nil_iff, other_success_iff] using start
  obtain rfl := eq_none_of_rm (same ▸ removed)
  have recipes : wordsOf s₄ = wordsOf (files (packagesList v.recipe)) ++
      wordsOf (files (devPackagesList v.recipe)) := by
    rw [wordsOf_catLine dev, wordsOf_cat list]
  rw [expectedPackages, ← recipes]
  split_ifs at tops ⊢ with htop
  · obtain ⟨s₅, list', dev'⟩ := Errexit.append_success_iff.mp tops
    rw [wordsOf_catLine dev', wordsOf_catLine list', List.append_assoc]
  · obtain ⟨rfl, -⟩ := Errexit.nil_iff.mp tops
    simp

/-! ## Histories -/

/-- One run. -/
theorem InstallRun.Happens.exact (h : r.Happens v s) : r.Exact v := by
  intro t ht
  cases h with
  | idle | stops => cases ht
  | reaches first rest =>
    obtain rfl := Option.some.inj ht
    exact wordsOf_beforeChroot first

/-- **Whatever earlier runs have left behind, a run that reaches the `chroot` installs exactly
the packages that are listed.** -/
theorem exact_along (v : PackageVars) (s : Option Text) (rs : List InstallRun)
    (happens : Along (fun _ r => r.after) (fun s r => r.Happens v s) s rs) :
    Along (fun _ r => r.after) (fun _ r => r.Exact v) s rs :=
  happens.mono fun _ _ h => h.exact

end PackageLists

/-! ## A failure without a network -/

/-- A top recipe on another one, each with a list. -/
def twoRecipes : PackageVars := ⟨"/top".toList, "/rpi".toList⟩

/-- Their lists, the first of which does not end in a newline. -/
def twoLists : ListSources := fun p =>
  if p = "/rpi/packages.list".toList then some "vim kmod".toList
  else if p = "/top/packages.list".toList then some "git\n".toList
  else none

/-- What is in `$(ROOTFS)/packages.list` at the `chroot`. -/
def joinedLists : Option Text := some "vim kmod\ngit\n".toList

/-- A run that fails in the `chroot`, and one that succeeds. -/
def retriedRuns : List InstallRun :=
  [⟨twoLists, true, some joinedLists, joinedLists⟩, ⟨twoLists, false, some joinedLists, none⟩]

/-- What the first run leaves is gone when the second one comes to the `chroot`. -/
theorem exact_along_retried :
    Along (fun _ r => r.after) (fun _ r => InstallRun.Exact twoRecipes r) none retriedRuns := by
  have cats : Errexit (ListCmd.Does twoLists) [.cat "/rpi/packages.list".toList, .echo,
      .cat "/top/packages.list".toList] none joinedLists true :=
    .next (.cat (t := "vim kmod".toList) none rfl)
      (.next (.echo _) (.next (.cat (t := "git\n".toList) _ rfl) (.done _)))
  have first : Errexit (ListCmd.Does twoLists) (beforeChroot twoRecipes twoLists none) none
      joinedLists true := .next (.other _ _ true) (.next (.other _ _ true) cats)
  have second : Errexit (ListCmd.Does twoLists) (beforeChroot twoRecipes twoLists joinedLists)
      joinedLists joinedLists true :=
    .next (.other _ _ true) (.next (.other _ _ true) (.next (.rm _) cats))
  have finish : Errexit (ListCmd.Does twoLists) afterChroot joinedLists none true :=
    .next (.other _ _ true) (.next (.tryRm _) (.next (.other _ _ true)
      (.next (.other _ _ true) (.next (.other _ _ true) (.done _)))))
  exact exact_along twoRecipes none retriedRuns
    ⟨.reaches first (.stop (.other _ _ false)), .reaches second finish, trivial⟩

end VeRoot
