import VeRoot.Make.History
import VeRoot.Store.ChangeSet
import VeRoot.Rootfs.Layers

/-!
# What the recipe adds to the root file system

`debian-customise` copies up to four directories to `$(ROOTFS)`, those for development only
without `CONFIG_RELEASE`.  There is one stamp for each of the two modes, and nothing that was
copied once is ever deleted.  Symbolic links are copied as well, but they are no prerequisites of
the stamp.

## Main definitions

* `SourceDir`, `synced` — the directories, and those that are copied.
* `SourceEntry` — what is in them.
* `CustomiseState`, `CustomiseAct` — what is built, and what may happen to it.
* `Independent` — after a build `$(ROOTFS)` has in it what a fresh build would copy.
* `KeepsUp` — the builds that keep up with the directories.
* `independent_iff` — the main result.
-/

namespace VeRoot

open Make Store

/-! ## One build -/

/-- The directories. -/
inductive SourceDir
  /-- `$(RECIPE)/rootfs` -/
  | recipe
  /-- `$(TOP)/rootfs` -/
  | top
  /-- `$(RECIPE)/dev-rootfs` -/
  | recipeDev
  /-- `$(TOP)/dev-rootfs` -/
  | topDev
  deriving DecidableEq, Repr

/-- The directories that are copied, in this order.  `same` says that `$(RECIPE)` is `$(TOP)`. -/
def synced (same release : Bool) : List SourceDir :=
  .recipe :: (if same then [] else [.top]) ++
    if release then [] else .recipeDev :: if same then [] else [.topDev]

/-- The directories whose files are prerequisites, with `CONFIG_RELEASE` or without. -/
def tracked (same : Bool) : List SourceDir :=
  [.recipe, .recipeDev] ++ if same then [] else [.top, .topDev]

/-- What stands at a path of a directory. -/
inductive SourceEntry (V : Type*)
  /-- A regular file. -/
  | file (v : V)
  | link (target : Path)
  deriving DecidableEq

/-- The directories and the output. -/
structure CustomiseState (V : Type*) where
  /-- The files and links of a directory, with their times. -/
  files : SourceDir → Path → Option (SourceEntry V × ℕ)
  /-- When `customise` and `customise.release` were touched, `0` if they are missing. -/
  stamp : Bool → ℕ
  /-- When the other prerequisites were touched, such as those of `debian-provision` and
  `debian-os-patch`. -/
  others : ℕ
  /-- What `debian-customise` has copied to `$(ROOTFS)`. -/
  copied : Tree Path (SourceEntry V)
  /-- What a fresh build would have copied when the last build was made, nothing before. -/
  last : Tree Path (SourceEntry V)
  clock : ℕ
  files_le : ∀ d p f, files d p = some f → f.2 ≤ clock
  stamp_le : ∀ b, stamp b ≤ clock
  others_le : others ≤ clock

/-- What may happen. -/
inductive CustomiseAct (V : Type*)
  /-- A file or a link is added or edited. -/
  | write (d : SourceDir) (p : Path) (e : SourceEntry V)
  | remove (d : SourceDir) (p : Path)
  /-- A `make` that succeeds.  It may provision `$(ROOTFS)` again, or remake another
  prerequisite, for reasons of their own. -/
  | build (release provisions remakes executed : Bool)

namespace CustomiseState

variable {V : Type*} (same : Bool) (s : CustomiseState V)

/-- A file is written, or removed. -/
def edit (d : SourceDir) (p : Path) (e : Option (SourceEntry V)) : CustomiseState V where
  files := Function.update s.files d
    (Function.update (s.files d) p (e.map fun e => (e, s.clock + 1)))
  stamp := s.stamp
  others := s.others
  copied := s.copied
  last := s.last
  clock := s.clock + 1
  files_le d' p' f hf := by
    by_cases hd : d' = d
    · subst hd
      by_cases hp : p' = p
      · subst hp
        simp only [Function.update_self, Option.map_eq_some_iff] at hf
        obtain ⟨v, -, rfl⟩ := hf
        exact le_rfl
      · rw [Function.update_self, Function.update_of_ne hp] at hf
        exact (s.files_le _ _ _ hf).trans (Nat.le_succ _)
    · rw [Function.update_of_ne hd] at hf
      exact (s.files_le _ _ _ hf).trans (Nat.le_succ _)
  stamp_le b := (s.stamp_le b).trans (Nat.le_succ _)
  others_le := s.others_le.trans (Nat.le_succ _)

/-- `rsync -av d/ $(ROOTFS)/` -/
def rsync (d : SourceDir) : ChangeSet Path (SourceEntry V) :=
  fun p => (s.files d p).map fun f => .written f.1

/-- The copies of a build. -/
def rsyncs (release : Bool) : List (ChangeSet Path (SourceEntry V)) :=
  (synced same release).map s.rsync

/-- What a build in a fresh `$(OUT)` copies. -/
def fresh (release : Bool) : Tree Path (SourceEntry V) :=
  applyAll (s.rsyncs same release) fun _ => none

/-- The stamp is missing, or older than a prerequisite.  Those are found with `find -type f`, so the
links of a directory are not among them. -/
def Outdated (release : Bool) : Prop :=
  s.stamp release = 0 ∨ s.stamp release < s.others ∨
    ∃ d ∈ tracked same, ∃ p v t, s.files d p = some (.file v, t) ∧ s.stamp release < t

/-- Another prerequisite is touched. -/
def remake : CustomiseState V where
  files := s.files
  stamp := s.stamp
  others := s.clock + 1
  copied := s.copied
  last := s.last
  clock := s.clock + 1
  files_le d p f hf := (s.files_le d p f hf).trans (Nat.le_succ _)
  stamp_le b := (s.stamp_le b).trans (Nat.le_succ _)
  others_le := le_rfl

/-- `debian-provision` deletes `$(ROOTFS)`. -/
def provision : CustomiseState V := { s.remake with copied := fun _ => none }

/-- What make does before it comes to `$(debian-customise)`. -/
def prepare (provisions remakes : Bool) : CustomiseState V :=
  if provisions then s.provision else if remakes then s.remake else s

/-- The recipe of `$(debian-customise)`. -/
def customise (release : Bool) : CustomiseState V where
  files := s.files
  stamp := Function.update s.stamp release (s.clock + 1)
  others := s.others
  copied := applyAll (s.rsyncs same release) s.copied
  last := s.last
  clock := s.clock + 1
  files_le d p f hf := (s.files_le d p f hf).trans (Nat.le_succ _)
  stamp_le b := by
    by_cases hb : b = release
    · simp [hb]
    · rw [Function.update_of_ne hb]
      exact (s.stamp_le b).trans (Nat.le_succ _)
  others_le := s.others_le.trans (Nat.le_succ _)

/-- A build, which executes the recipe or does not. -/
def build (release provisions remakes executed : Bool) : CustomiseState V :=
  let s' := s.prepare provisions remakes
  { (if executed then s'.customise same release else s') with last := s'.fresh same release }

/-- Nothing has been built. -/
structure Untouched : Prop where
  stamp : ∀ b, s.stamp b = 0
  copied : s.copied = fun _ => none
  last : s.last = fun _ => none

end CustomiseState

/-! ## Histories -/

namespace CustomiseAct

variable {V : Type*} (same : Bool)

/-- The state after an act. -/
def after (s : CustomiseState V) : CustomiseAct V → CustomiseState V
  | .write d p e => s.edit d p (some e)
  | .remove d p => s.edit d p none
  | .build release provisions remakes executed => s.build same release provisions remakes executed

/-- Make executes the recipe if it finds the stamp out of date. -/
def Happens (s : CustomiseState V) : CustomiseAct V → Prop
  | .write _ _ _ | .remove _ _ => True
  | .build release provisions remakes executed =>
    executed = true ↔ (s.prepare provisions remakes).Outdated same release

/-- After a build `$(ROOTFS)` has in it what a fresh build copies, and nothing else. -/
def Independent (s : CustomiseState V) : CustomiseAct V → Prop
  | .write _ _ _ | .remove _ _ => True
  | .build release provisions remakes executed =>
    (s.build same release provisions remakes executed).copied = s.fresh same release

/-- `$(ROOTFS)` is provisioned again.  Or the stamp is out of date, and every file that the
directories provided at the last build is still provided.  Or it is not, and the directories
provide the same files as at the last build. -/
def KeepsUp (s : CustomiseState V) : CustomiseAct V → Prop
  | .write _ _ _ | .remove _ _ => True
  | .build release provisions remakes _ =>
    provisions = true ∨
      ((s.prepare provisions remakes).Outdated same release →
        ∀ p, s.last p ≠ none → s.fresh same release p ≠ none) ∧
      (¬ (s.prepare provisions remakes).Outdated same release → s.last = s.fresh same release)

end CustomiseAct

/-- In every history that begins with a fresh `$(OUT)`. -/
def ReleaseIndependent (V : Type*) (same : Bool) : Prop :=
  ∀ (s : CustomiseState V) as, s.Untouched →
    Along (CustomiseAct.after same) (CustomiseAct.Happens same) s as →
      Along (CustomiseAct.after same) (CustomiseAct.Independent same) s as

section Customise

variable {V : Type*} {same release provisions remakes executed : Bool} {s : CustomiseState V}
  {as : List (CustomiseAct V)} {p : Path} {e : SourceEntry V}

/-! ## One build -/

/-- `rsync` deletes nothing. -/
theorem rsyncs_ne_whiteout : ∀ C ∈ s.rsyncs same release, C p ≠ some .whiteout := by
  intro C hC
  obtain ⟨d, -, rfl⟩ := List.mem_map.mp hC
  rw [CustomiseState.rsync]
  cases s.files d p <;> simp

/-- What is copied over `t`. -/
theorem rsyncs_apply : applyAll (s.rsyncs same release) t p = (s.fresh same release p).or (t p) :=
  applyAll_eq_or rsyncs_ne_whiteout

/-- The files that are copied. -/
theorem fresh_ne_none_iff :
    s.fresh same release p ≠ none ↔ ∃ d ∈ synced same release, s.files d p ≠ none := by
  rw [CustomiseState.fresh, applyAll_ne_none_iff rsyncs_ne_whiteout]
  simp [CustomiseState.rsyncs, CustomiseState.rsync]

theorem prepare_fresh :
    (s.prepare provisions remakes).fresh same release = s.fresh same release := by
  cases provisions <;> cases remakes <;> rfl

theorem build_fresh :
    (s.build same release provisions remakes executed).fresh same release =
      s.fresh same release := by
  cases provisions <;> cases remakes <;> cases executed <;> rfl

/-- Where a prerequisite is remade, the stamp is out of date. -/
theorem outdated_prepare (h : provisions = true ∨ remakes = true) :
    (s.prepare provisions remakes).Outdated same release := by
  refine .inr (.inl ?_)
  have older : s.stamp release < s.clock + 1 := Nat.lt_succ_of_le (s.stamp_le release)
  cases provisions with
  | true => exact older
  | false =>
    obtain rfl : remakes = true := h.resolve_left Bool.false_ne_true
    exact older

/-- What a build leaves in `$(ROOTFS)`. -/
theorem build_copied : (s.build same release provisions remakes executed).copied =
    if executed then fun p => (s.fresh same release p).or
      (if provisions then none else s.copied p)
    else if provisions then fun _ => none else s.copied := by
  have before : (s.prepare provisions remakes).copied =
      if provisions then fun _ => none else s.copied := by
    cases provisions <;> cases remakes <;> rfl
  rw [CustomiseState.build]
  cases executed with
  | true =>
    funext p
    change applyAll ((s.prepare provisions remakes).rsyncs same release)
      (s.prepare provisions remakes).copied p = _
    rw [rsyncs_apply, prepare_fresh, before]
    cases provisions <;> rfl
  | false => exact before

/-- **A build after which `$(ROOTFS)` was as it should be.** -/
theorem independent_iff_keepsUp (a : CustomiseAct V) (inv : s.copied = s.last)
    (happens : a.Happens same s) : a.Independent same s ↔ a.KeepsUp same s := by
  cases a with
  | write | remove => exact Iff.rfl
  | build release provisions remakes executed =>
    rw [CustomiseAct.Happens] at happens
    rw [CustomiseAct.Independent, CustomiseAct.KeepsUp, build_copied, ← happens]
    cases provisions with
    | true =>
      obtain rfl : executed = true := happens.mpr (outdated_prepare (.inl rfl))
      simp
    | false =>
      rw [inv]
      cases executed with
      | true =>
        simp only [if_true, Bool.false_eq_true, if_false, false_or, not_true, false_implies,
          and_true, true_implies, funext_iff]
        refine forall_congr' fun p => ?_
        cases s.fresh same release p <;> cases s.last p <;> simp
      | false => simp

/-! ## All histories -/

/-- Builds keep up as long as `$(ROOTFS)` was as it should be before each of them. -/
theorem along_independent_iff (untouched : s.Untouched) :
    Along (CustomiseAct.after same) (fun s a => a.Happens same s ∧ a.Independent same s) s as ↔
      Along (CustomiseAct.after same) (fun s a => a.Happens same s ∧ a.KeepsUp same s) s as := by
  have inv : s.copied = s.last := untouched.copied.trans untouched.last.symm
  have agree : ∀ (s : CustomiseState V) (a : CustomiseAct V), s.copied = s.last →
      (a.Happens same s ∧ a.Independent same s ↔ a.Happens same s ∧ a.KeepsUp same s) :=
    fun s a inv => and_congr_right (independent_iff_keepsUp a inv)
  have keeps : ∀ (s : CustomiseState V) (a : CustomiseAct V), s.copied = s.last →
      a.Happens same s ∧ a.Independent same s →
        (a.after same s).copied = (a.after same s).last := by
    rintro s a inv ⟨-, independent⟩
    cases a with
    | write | remove => exact inv
    | build release provisions remakes executed => exact independent.trans prepare_fresh.symm
  exact along_congr agree keeps inv

/-- **What a build copies is independent of the builds before exactly if every build keeps up**
with the directories. -/
theorem independent_iff (same : Bool) (s : CustomiseState V) (as : List (CustomiseAct V))
    (untouched : s.Untouched)
    (happens : Along (CustomiseAct.after same) (CustomiseAct.Happens same) s as) :
    Along (CustomiseAct.after same) (CustomiseAct.Independent same) s as ↔
      Along (CustomiseAct.after same) (CustomiseAct.KeepsUp same) s as := by
  constructor
  · intro independent
    exact ((along_independent_iff untouched).mp (happens.and independent)).mono fun _ _ h => h.2
  · intro keepsUp
    exact ((along_independent_iff untouched).mpr (happens.and keepsUp)).mono fun _ _ h => h.2

/-- **After a build with `CONFIG_RELEASE` there is no file that only a development directory
has**, if the build is independent of those before. -/
theorem exists_rootfs_of_release
    (h : (CustomiseAct.build true provisions remakes executed).Independent same s)
    (hp : (s.build same true provisions remakes executed).copied p ≠ none) :
    ∃ d, (d = .recipe ∨ d = .top) ∧ s.files d p ≠ none := by
  rw [show (s.build same true provisions remakes executed).copied = s.fresh same true from h] at hp
  obtain ⟨d, hd, found⟩ := fresh_ne_none_iff.mp hp
  refine ⟨d, ?_, found⟩
  cases same with
  | true => exact .inl (by simpa [synced] using hd)
  | false => simpa [synced] using hd

/-! ## One mode -/

/-- Builds of one mode, between which regular files are added and edited. -/
def CustomiseAct.Adds (release : Bool) (_ : CustomiseState V) : CustomiseAct V → Prop
  | .write _ _ (.file _) => True
  | .write _ _ (.link _) | .remove _ _ => False
  | .build r _ _ _ => r = release

/-- What was provided is still provided, and if it is not the same then make will notice. -/
structure Noticing (same release : Bool) (s : CustomiseState V) : Prop where
  stays : ∀ p, s.last p ≠ none → s.fresh same release p ≠ none
  current : ¬ s.Outdated same release → s.last = s.fresh same release

theorem mem_tracked_of_synced {d : SourceDir} (h : d ∈ synced same release) : d ∈ tracked same := by
  cases same <;> cases release <;> cases d <;> revert h <;> decide

/-- The other directories are as they were. -/
theorem edit_files_of_ne {d d' : SourceDir} (h : d' ≠ d) (e : Option (SourceEntry V)) :
    (s.edit d p e).files d' = s.files d' :=
  Function.update_of_ne h ..

/-- The file is there. -/
theorem edit_files_self (d : SourceDir) (e : SourceEntry V) :
    (s.edit d p (some e)).files d p = some (e, s.clock + 1) := by
  simp [CustomiseState.edit]

theorem edit_files_ne_none {d d' : SourceDir} {q : Path} (e : SourceEntry V)
    (h : s.files d' q ≠ none) : (s.edit d p (some e)).files d' q ≠ none := by
  by_cases hd : d' = d
  · subst hd
    by_cases hq : q = p
    · subst hq
      simp [edit_files_self]
    · simpa [CustomiseState.edit, hq] using h
  · rwa [edit_files_of_ne hd]

/-- A regular file is added or edited. -/
theorem Noticing.write (h : Noticing same release s) (d : SourceDir) (p : Path) (v : V) :
    Noticing same release (s.edit d p (some (.file v))) := by
  constructor
  · intro q hq
    obtain ⟨d', hd', found⟩ := fresh_ne_none_iff.mp (h.stays q hq)
    exact fresh_ne_none_iff.mpr ⟨d', hd', edit_files_ne_none _ found⟩
  · intro upToDate
    have untracked : d ∉ tracked same := by
      intro hd
      exact upToDate (.inr (.inr ⟨d, hd, p, v, _, edit_files_self d _,
        Nat.lt_succ_of_le (s.stamp_le release)⟩))
    have other : ∀ d' ∈ tracked same, (s.edit d p (some (.file v))).files d' = s.files d' := by
      intro d' hd'
      refine edit_files_of_ne ?_ _
      rintro rfl
      exact untracked hd'
    have before : ¬ s.Outdated same release := by
      rintro (missing | older | ⟨d', hd', q, w, t, hf, newer⟩)
      · exact upToDate (.inl missing)
      · exact upToDate (.inr (.inl older))
      · exact upToDate (.inr (.inr ⟨d', hd', q, w, t, by rw [other d' hd', hf], newer⟩))
    have rsyncs : (s.edit d p (some (.file v))).rsyncs same release = s.rsyncs same release := by
      refine List.map_congr_left fun d' hd' => ?_
      funext q
      rw [CustomiseState.rsync, CustomiseState.rsync, other d' (mem_tracked_of_synced hd')]
    rw [CustomiseState.fresh, rsyncs]
    exact h.current before

/-- Nothing is built yet. -/
theorem CustomiseState.Untouched.noticing (h : s.Untouched) : Noticing same release s :=
  ⟨fun p hp => absurd (congrFun h.last p) hp,
    fun upToDate => absurd (.inl (h.stamp release)) upToDate⟩

/-- **Builds of one mode keep up** as long as no file is removed and no link is touched. -/
theorem independent_of_adds (untouched : s.Untouched)
    (happens : Along (CustomiseAct.after same) (CustomiseAct.Happens same) s as)
    (adds : Along (CustomiseAct.after same) (CustomiseAct.Adds release) s as) :
    Along (CustomiseAct.after same) (CustomiseAct.Independent same) s as := by
  refine ((along_independent_iff untouched).mpr (happens.and ?_)).mono fun _ _ h => h.2
  refine adds.of_invariant (I := Noticing same release) ?_ untouched.noticing
  intro s a noticing adds
  cases a with
  | write d p e =>
    cases e with
    | file v => exact ⟨trivial, noticing.write d p v⟩
    | link target => exact adds.elim
  | remove d p => exact adds.elim
  | build r provisions remakes executed =>
    obtain rfl : r = release := adds
    refine ⟨.inr ⟨fun _ => noticing.stays, fun upToDate => noticing.current fun outdated => ?_⟩, ?_⟩
    · cases provisions with
      | true => exact upToDate (outdated_prepare (.inl rfl))
      | false =>
        cases remakes with
        | true => exact upToDate (outdated_prepare (.inr rfl))
        | false => exact upToDate outdated
    · have last : (s.build same r provisions remakes executed).last = s.fresh same r :=
        prepare_fresh
      refine ⟨fun p hp => ?_, fun _ => ?_⟩
      · change (s.build same r provisions remakes executed).last p ≠ none at hp
        change (s.build same r provisions remakes executed).fresh same r p ≠ none
        rwa [build_fresh, ← last]
      · exact last.trans build_fresh.symm

end Customise

/-! ## A key -/

/-- An output directory in which nothing is built, and no files. -/
def freshOut : CustomiseState String where
  files _ _ := none
  stamp _ := 0
  others := 0
  copied _ := none
  last _ := none
  clock := 0
  files_le _ _ _ h := by cases h
  stamp_le _ := le_rfl
  others_le := le_rfl

theorem untouched_freshOut : freshOut.Untouched := ⟨fun _ => rfl, rfl, rfl⟩

/-- A key for development, a build without `CONFIG_RELEASE`, and one with it. -/
def leakHistory : List (CustomiseAct String) :=
  [.write .recipeDev "root/.ssh/authorized_keys" (.file "ssh-ed25519 developer"),
    .build false true false true, .build true false false true]

/-- Both builds find their stamp missing. -/
theorem happens_leakHistory :
    Along (CustomiseAct.after true) (CustomiseAct.Happens true) freshOut leakHistory :=
  ⟨trivial, iff_of_true rfl (outdated_prepare (.inl rfl)), iff_of_true rfl (.inl rfl), trivial⟩

/-- The key stays in `$(ROOTFS)`. -/
theorem not_independent_leakHistory :
    ¬ Along (CustomiseAct.after true) (CustomiseAct.Independent true) freshOut leakHistory := by
  intro h
  have key := congrFun h.2.2.1 "root/.ssh/authorized_keys"
  revert key
  decide

/-- **The key is in the release.** -/
theorem not_releaseIndependent : ¬ ReleaseIndependent String true :=
  fun h => not_independent_leakHistory (h _ _ untouched_freshOut happens_leakHistory)

/-- The release does not keep up with the directories. -/
theorem independent_iff_leakHistory :
    ¬ Along (CustomiseAct.after true) (CustomiseAct.KeepsUp true) freshOut leakHistory := by
  rw [← independent_iff true freshOut leakHistory untouched_freshOut happens_leakHistory]
  exact not_independent_leakHistory

end VeRoot
