import VeRoot.Make.Run

/-!
# Incremental builds

Files have times.  Make remakes a file if it is missing, or if a normal prerequisite
was remade or is newer; order-only prerequisites only order.  A recipe may change other
files on its way, and for a directory every entry that comes or goes is a change.

After a run that completes, the next one finds everything up to date if nothing has
changed a prerequisite behind the back of a file that was finished before.

## Main definitions

* `Files`, `FileCmd`, `FileCmd.Does` — the files, and what recipes do to them.
* `Project` — a makefile whose nodes may be files.
* `Project.Tidy` — recipes that end by touching their target.
* `Project.InOrder` — who changes a prerequisite of a file comes before that file.
* `Project.Settled`, `Project.SettledOff` — nothing is out of date, or only certain files are.
* `Project.reckless` — the runs that do what is worst for one file.
* `SettledOff.idle_above` — what rests on nothing that is out of date is not remade.
* `idle_iff_inOrder` — when a second run has nothing to do.
-/

namespace Make

variable {ν κ : Type*}

/-- The recipe of the node is being executed, or has been. -/
def Phase.Executed : Phase κ → Prop
  | .running _ | .made => True
  | .idle | .kept => False

@[simp] theorem Phase.executed_made : (Phase.made : Phase κ).Executed := trivial
@[simp] theorem Phase.executed_running (cs : List κ) : (Phase.running cs).Executed := trivial
@[simp] theorem Phase.not_executed_idle : ¬ (Phase.idle : Phase κ).Executed := id
@[simp] theorem Phase.not_executed_kept : ¬ (Phase.kept : Phase κ).Executed := id

theorem Phase.Running.executed {p : Phase κ} (h : p.Running) : p.Executed := by
  cases p with
  | running rest => trivial
  | idle | made | kept => exact absurd h id

/-- The files, under a logical clock. -/
structure Files (ν : Type*) where
  /-- When a file was last changed, `0` if it does not exist. -/
  mtime : ν → ℕ
  /-- The time of the last change. -/
  clock : ℕ
  /-- No file is from the future. -/
  le_clock : ∀ n, mtime n ≤ clock

/-- A command, as far as the nodes of the graph are concerned. -/
inductive FileCmd (ν : Type*)
  /-- `touch n`. -/
  | touch (n : ν)
  /-- `mkdir -p n`. -/
  | create (n : ν)
  /-- A command that may change `n`, or what the directory `n` has in it. -/
  | change (n : ν)
  deriving DecidableEq, Repr

section Files

variable [DecidableEq ν] {w w' : Files ν} {m n : ν} {c : FileCmd ν}

/-- `n` is changed now. -/
def Files.set (w : Files ν) (n : ν) : Files ν where
  mtime := Function.update w.mtime n (w.clock + 1)
  clock := w.clock + 1
  le_clock m := by
    by_cases h : m = n
    · simp [h]
    · rw [Function.update_of_ne h]
      exact (w.le_clock m).trans (Nat.le_succ _)

@[simp] theorem Files.set_mtime_self : (w.set n).mtime n = w.clock + 1 := Function.update_self ..

@[simp] theorem Files.set_clock : (w.set n).clock = w.clock + 1 := rfl

theorem Files.set_mtime_of_ne (h : m ≠ n) : (w.set n).mtime m = w.mtime m :=
  Function.update_of_ne h ..

/-- What a command may do. -/
inductive FileCmd.Does : FileCmd ν → Files ν → Files ν → Prop
  | touch (n : ν) (w : Files ν) : Does (.touch n) w (w.set n)
  | create {n : ν} {w : Files ν} (missing : w.mtime n = 0) : Does (.create n) w (w.set n)
  | found {n : ν} {w : Files ν} (found : w.mtime n ≠ 0) : Does (.create n) w w
  | change (n : ν) (w : Files ν) : Does (.change n) w (w.set n)
  | leave (n : ν) (w : Files ν) : Does (.change n) w w

/-- A command changes one file or none. -/
theorem FileCmd.Does.eq_or (h : c.Does w w') :
    w' = w ∨ ∃ f, w' = w.set f ∧
      (c = .touch f ∨ (c = .create f ∧ w.mtime f = 0) ∨ c = .change f) := by
  cases h with
  | touch f => exact .inr ⟨f, rfl, .inl rfl⟩
  | create missing => exact .inr ⟨_, rfl, .inr (.inl ⟨rfl, missing⟩)⟩
  | change f => exact .inr ⟨f, rfl, .inr (.inr rfl)⟩
  | found | leave => exact .inl rfl

/-- No file is lost, and time goes on. -/
theorem FileCmd.Does.le (h : c.Does w w') :
    w.clock ≤ w'.clock ∧ ∀ m, w.mtime m ≤ w'.mtime m := by
  rcases h.eq_or with rfl | ⟨f, rfl, -⟩
  · exact ⟨le_rfl, fun m => le_rfl⟩
  · refine ⟨Nat.le_succ _, fun m => ?_⟩
    by_cases hm : m = f
    · subst hm
      rw [Files.set_mtime_self]
      exact (w.le_clock m).trans (Nat.le_succ _)
    · rw [Files.set_mtime_of_ne hm]

/-- A file another command is about stays as it is. -/
theorem FileCmd.Does.mtime_eq (h : c.Does w w') (ht : c ≠ .touch m)
    (hc : c = .create m → w.mtime m ≠ 0) (hch : c ≠ .change m) : w'.mtime m = w.mtime m := by
  rcases h.eq_or with rfl | ⟨f, rfl, hf⟩
  · rfl
  · refine Files.set_mtime_of_ne ?_
    rintro rfl
    rcases hf with hf | ⟨hf, hmiss⟩ | hf
    · exact ht hf
    · exact hc hf hmiss
    · exact hch hf

end Files

/-- A makefile whose nodes may be files, and the edges that make drops. -/
structure Project (ν : Type*) where
  rules : List (Rule ν)
  goal : ν
  /-- The nodes that stand for no file. -/
  phony : ν → Prop
  recipe : ν → List (FileCmd ν)
  drop : ν → ν → Prop
  drop_circular : ∀ a b, drop a b → Relation.TransGen (Prereq rules) b a
  /-- Every cycle is broken. -/
  acyclic : Acyclic fun a b => Prereq rules a b ∧ ¬ drop a b

namespace Project

/-- `b` is a normal prerequisite of `a` that make honours. -/
def Forces (P : Project ν) (a b : ν) : Prop := Normal P.rules a b ∧ ¬ P.drop a b

/-- Make has to remake `n`. -/
def OutOfDate (P : Project ν) (s : State ν (FileCmd ν) (Files ν)) (n : ν) : Prop :=
  P.phony n ∨ s.world.mtime n = 0 ∨
    ∃ b, P.Forces n b ∧ (s.phase b = .made ∨ s.world.mtime n < s.world.mtime b)

/-- The runs of a project.  A node without a rule cannot be remade. -/
def system [DecidableEq ν] (P : Project ν) : System ν (FileCmd ν) (Files ν) where
  prereq := Prereq P.rules
  drop := P.drop
  drop_circular := P.drop_circular
  wanted n := Relation.ReflTransGen (Prereq P.rules) P.goal n
  recipe := P.recipe
  exec := FileCmd.Does
  mayMake s n := IsTarget P.rules n ∧ P.OutOfDate s n
  mayKeep s n := ¬ P.OutOfDate s n

/-- Recipes of files end by touching them; only directories, which have no
prerequisites, are created.  Phony recipes do no more than create directories. -/
structure Tidy (P : Project ν) : Prop where
  rule_of_phony : ∀ n, P.phony n → IsTarget P.rules n
  recipe_of_phony : ∀ n, P.phony n → ∀ c ∈ P.recipe n, ∃ f, c = .create f
  not_phony : ∀ a b, Normal P.rules a b → ¬ P.phony a → ¬ P.phony b
  recipe_of_file : ∀ n, ¬ P.phony n → IsTarget P.rules n →
    (∃ cs, P.recipe n = cs ++ [.touch n]) ∨ (P.recipe n = [.create n] ∧ ∀ b, ¬ Normal P.rules n b)
  eq_of_touch : ∀ n f, .touch f ∈ P.recipe n → f = n
  recipe_of_create : ∀ n f, .create f ∈ P.recipe n → P.recipe f = [.create f]

/-- The files that are asked for. -/
def File [DecidableEq ν] (P : Project ν) (n : ν) : Prop := P.system.wanted n ∧ ¬ P.phony n

/-- A file that may change a prerequisite of another file comes before it. -/
def InOrder [DecidableEq ν] (P : Project ν) : Prop :=
  ∀ n f u, P.File n → IsTarget P.rules n → .change f ∈ P.recipe n → P.File u → P.Forces u f →
    u ≠ n → Relation.TransGen P.system.Honours u n

/-- All files exist and none is older than a prerequisite. -/
def Settled [DecidableEq ν] (P : Project ν) (w : Files ν) : Prop :=
  ∀ n, P.File n → w.mtime n ≠ 0 ∧ ∀ b, P.Forces n b → w.mtime b ≤ w.mtime n

/-- `n` may change the prerequisite `f` of `u`, and nothing makes it come before `u`. -/
structure OutOfOrder [DecidableEq ν] (P : Project ν) (n f u : ν) : Prop where
  file : P.File n
  rule : IsTarget P.rules n
  changes : .change f ∈ P.recipe n
  dependent : P.File u
  forces : P.Forces u f
  ne : u ≠ n
  unordered : ¬ Relation.TransGen P.system.Honours u n

/-- A run that completes. -/
def Completed [DecidableEq ν] (P : Project ν) (w : Files ν) (s : State ν (FileCmd ν) (Files ν)) :
    Prop :=
  P.system.Reachable w s ∧ ∀ n, P.system.wanted n → (s.phase n).Finished

variable [DecidableEq ν] {P : Project ν} {w : Files ν} {s s' : State ν (FileCmd ν) (Files ν)}
  {a b m n f t u : ν} {c : FileCmd ν} {U : ν → Prop}

theorem Forces.honours (h : P.Forces a b) : P.system.Honours a b := ⟨.inl h.1, h.2⟩

theorem File.forces (tidy : P.Tidy) (ha : P.File a) (h : P.Forces a b) : P.File b :=
  ⟨ha.1.tail (.inl h.1), tidy.not_phony a b h.1 ha.2⟩

/-- A file with prerequisites is touched last. -/
theorem Forces.recipe (tidy : P.Tidy) (ha : P.File a) (h : P.Forces a b) :
    ∃ cs, P.recipe a = cs ++ [.touch a] :=
  (tidy.recipe_of_file a ha.2 (h.1.imp fun _ hr => ⟨hr.1, hr.2.1⟩)).resolve_right
    fun hc => hc.2 b h.1

/-! ## The first run -/

/-- Only what has a rule is remade. -/
theorem isTarget_of_executed (h : P.system.Reachable w s) (hn : (s.phase n).Executed) :
    IsTarget P.rules n := by
  refine h.invariant (P := fun s => (s.phase n).Executed → IsTarget P.rules n) (fun h => h.elim)
    ?_ hn
  intro s s' _ ih step hn
  rcases step.phase_cases n with same | ⟨-, -, -, -, ⟨may, -⟩ | ⟨-, kept⟩⟩ |
    ⟨c, rest, running, -⟩ | ⟨running, -⟩
  · exact ih (same ▸ hn)
  · exact may.1
  · simp [kept] at hn
  · exact ih (by simp [running])
  · exact ih (by simp [running])

/-- No file is lost. -/
theorem mtime_le_of_step (h : P.system.Step s s') (m : ν) :
    s.world.mtime m ≤ s'.world.mtime m := by
  cases h with
  | exec n c rest w' running does => exact does.le.2 m
  | make | keep | finish => exact le_rfl

/-- No file is lost in a run. -/
theorem mtime_le_of_reachable (h : P.system.Reachable w s) (n : ν) : w.mtime n ≤ s.world.mtime n :=
  h.invariant (P := fun s => w.mtime n ≤ s.world.mtime n) le_rfl
    fun _ _ _ ih step => ih.trans (mtime_le_of_step step n)

/-- A file that is finished exists. -/
theorem mtime_ne_zero (tidy : P.Tidy) (h : P.system.Reachable w s) (hn : P.File n)
    (hf : (s.phase n).Finished) : s.world.mtime n ≠ 0 := by
  have mono : ∀ m, P.system.wanted m → ∀ d ∈ P.recipe m, ∀ w w' : Files ν, d.Does w w' →
      w.mtime n ≠ 0 → w'.mtime n ≠ 0 := by
    intro m _ d _ w w' does h
    have := does.le.2 n
    omega
  refine h.invariant (P := fun s => (s.phase n).Finished → s.world.mtime n ≠ 0)
    (fun h => h.elim) ?_ hf
  intro s s' hs ih step hf
  have hle := mtime_le_of_step step n
  rcases step.phase_cases n with same | ⟨-, -, -, -, ⟨-, running⟩ | ⟨may, -⟩⟩ |
    ⟨c, rest, -, running, -⟩ | ⟨running, -⟩
  · have := ih (same ▸ hf)
    omega
  · simp [running] at hf
  · have : s.world.mtime n ≠ 0 := fun h0 => may (.inr (.inl h0))
    omega
  · simp [running] at hf
  · -- the last command of its recipe has made the file
    have past : ∀ c, (s.phase n).Past c := fun c => by simp [running]
    have target : IsTarget P.rules n := isTarget_of_executed hs (by simp [running])
    suffices s.world.mtime n ≠ 0 by omega
    rcases tidy.recipe_of_file n hn.2 target with ⟨cs, hcs⟩ | ⟨hcs, -⟩
    · refine hs.established (c := .touch n) (Q := fun w => w.mtime n ≠ 0) (by simp [system, hcs])
        (fun w w' does => ?_) mono (past _)
      cases does
      simp
    · refine hs.established (c := .create n) (Q := fun w => w.mtime n ≠ 0) (by simp [system, hcs])
        (fun w w' does => ?_) mono (past _)
      cases does with
      | create missing => simp
      | found h => exact h

/-- The last command of the recipe of a file with prerequisites is behind it exactly if
all commands are. -/
theorem eq_nil_of_past (tidy : P.Tidy) (h : P.system.Reachable w s) (hu : P.File u)
    (hf : P.Forces u f) {rest : List (FileCmd ν)} (running : s.phase u = .running rest)
    (past : .touch u ∉ rest) : rest = [] := by
  obtain ⟨cs, hcs⟩ := Forces.recipe tidy hu hf
  have suffix : rest <:+ cs ++ [.touch u] := hcs ▸ h.suffix running
  rcases List.suffix_concat_iff.mp suffix with rfl | ⟨cs, rfl, -⟩
  · rfl
  · simp at past

/-- **No file falls behind a prerequisite**, once it is kept or touched. -/
theorem mtime_le_of_finished (tidy : P.Tidy) (ordered : P.InOrder) (h : P.system.Reachable w s)
    (hu : P.File u) (hf : P.Forces u f)
    (past : s.phase u = .kept ∨ (s.phase u).Past (.touch u)) :
    s.world.mtime f ≤ s.world.mtime u := by
  revert hf past
  refine h.invariant (P := fun s => ∀ {f}, P.Forces u f →
    s.phase u = .kept ∨ (s.phase u).Past (.touch u) → s.world.mtime f ≤ s.world.mtime u)
    (by simp [System.start]) ?_
  intro s s' hs ih step f hf past
  cases step with
  | make m idle =>
    by_cases e : u = m
    · subst e
      obtain ⟨cs, hcs⟩ := hf.recipe tidy hu
      simp [system, hcs] at past
    · exact ih hf (by simpa [Function.update_of_ne e] using past)
  | keep m idle wanted ready may =>
    by_cases e : u = m
    · subst e
      exact not_lt.mp fun hlt => may (.inr (.inr ⟨f, hf, .inr hlt⟩))
    · exact ih hf (by simpa [Function.update_of_ne e] using past)
  | finish m running =>
    by_cases e : u = m
    · subst e
      exact ih hf (.inr (by simp [running]))
    · exact ih hf (by simpa [Function.update_of_ne e] using past)
  | exec m c rest w' running does =>
    have hc : c ∈ P.recipe m := (hs.suffix running).subset (by simp)
    have hm : (s.phase m).Executed := by simp [running]
    by_cases e : u = m
    · -- all but the last command are ahead of the touch
      subst e
      have hrest : .touch u ∉ rest := by simpa using past
      have ht : c = .touch u := by
        by_contra ne
        have := eq_nil_of_past tidy hs hu hf running (by simp [Ne.symm ne, hrest])
        cases this
      subst ht
      cases does
      rw [Files.set_mtime_self]
      exact ((s.world.set u).le_clock f)
    · -- whoever would change `f` is finished, since `u` has begun
      have past : s.phase u = .kept ∨ (s.phase u).Past (.touch u) := by
        simpa [Function.update_of_ne e] using past
      have begun : s.phase u ≠ .idle := by
        intro h
        simp [h] at past
      have done : (s.phase f).Finished := hs.finished_of_prereq hf.honours.1 hf.honours.2 begun
      have hle := ih hf past
      have hmono := does.le.2 u
      rw [does.mtime_eq (m := f)]
      · exact hle.trans hmono
      · rintro rfl
        rw [tidy.eq_of_touch m f hc] at done
        simp [running] at done
      · rintro -
        exact mtime_ne_zero tidy hs (hu.forces tidy hf) done
      · rintro rfl
        have hfile : P.File m := by
          refine ⟨hs.wanted_of_begun (by simp [running]), fun ph => ?_⟩
          obtain ⟨g, hg⟩ := tidy.recipe_of_phony m ph _ hc
          cases hg
        have := hs.finished_of_path
          (ordered m f u hfile (isTarget_of_executed hs hm) hc hu hf e) begun
        simp [running] at this

/-- **After a run that completes, nothing is out of date.** -/
theorem Completed.settled (h : P.Completed w s) (tidy : P.Tidy) (ordered : P.InOrder) :
    P.Settled s.world := by
  intro n hn
  have done := h.2 n hn.1
  refine ⟨mtime_ne_zero tidy h.1 hn done, fun b hb => ?_⟩
  refine mtime_le_of_finished tidy ordered h.1 hn hb ?_
  cases hp : s.phase n with
  | kept => exact .inl rfl
  | made => exact .inr trivial
  | idle | running rest => simp [hp] at done

/-! ## The second run -/

/-- Nothing is out of date, except in a set of files `U`. -/
def SettledOff (P : Project ν) (U : ν → Prop) (w : Files ν) : Prop :=
  ∀ n, P.File n → ¬ U n → w.mtime n ≠ 0 ∧ ∀ b, P.Forces n b → w.mtime b ≤ w.mtime n

/-- **What does not lead to `U` is not remade**, if no recipe in `U` changes other files. -/
theorem SettledOff.idle (hw : P.SettledOff U w) (tidy : P.Tidy)
    (closed : ∀ a b, P.Forces a b → U b → U a)
    (still : ∀ m, P.File m → U m → ∀ n, ¬ U n → .change n ∉ P.recipe m)
    (h : P.system.Reachable w s) :
    ∀ n, P.File n → ¬ U n → ¬ (s.phase n).Executed ∧ s.world.mtime n = w.mtime n := by
  refine h.invariant (P := fun s => ∀ n, P.File n → ¬ U n →
    ¬ (s.phase n).Executed ∧ s.world.mtime n = w.mtime n) (by simp [System.start]) ?_
  intro s s' hs ih step n hn hU
  obtain ⟨hexec, htime⟩ := ih n hn hU
  cases step with
  | make m idle wanted ready may =>
    refine ⟨?_, htime⟩
    by_cases e : n = m
    · subst e
      have old : ∀ b, P.Forces n b → ¬ U b := fun b hb hUb => hU (closed n b hb hUb)
      obtain ⟨-, ph | h0 | ⟨b, hb, hmade | hlt⟩⟩ := may
      · exact absurd ph hn.2
      · exact absurd (htime ▸ h0) (hw n hn hU).1
      · exact absurd (hmade ▸ trivial) (ih b (hn.forces tidy hb) (old b hb)).1
      · rw [htime, (ih b (hn.forces tidy hb) (old b hb)).2] at hlt
        exact absurd ((hw n hn hU).2 b hb) (not_le.mpr hlt)
    · simpa [Function.update_of_ne e] using hexec
  | keep m | finish m running =>
    refine ⟨?_, htime⟩
    by_cases e : n = m
    · subst e
      simp_all
    · simpa [Function.update_of_ne e] using hexec
  | exec m c rest w' running does =>
    have e : n ≠ m := by
      rintro rfl
      simp [running] at hexec
    have hc : c ∈ P.recipe m := (hs.suffix running).subset (by simp)
    refine ⟨by simpa [Function.update_of_ne e] using hexec, ?_⟩
    rw [← htime]
    refine does.mtime_eq ?_ ?_ ?_
    · rintro rfl
      exact e (tidy.eq_of_touch m n hc)
    · rintro -
      rw [htime]
      exact (hw n hn hU).1
    · rintro rfl
      by_cases ph : P.phony m
      · obtain ⟨g, hg⟩ := tidy.recipe_of_phony m ph _ hc
        cases hg
      · have hm : P.File m := ⟨hs.wanted_of_begun (by simp [running]), ph⟩
        by_cases hUm : U m
        · exact still m hm hUm n hU hc
        · exact (ih m hm hUm).1 (by simp [running])

/-- **Where nothing is out of date, no file is remade** and none changes. -/
theorem Settled.idle (hw : P.Settled w) (tidy : P.Tidy) (h : P.system.Reachable w s) :
    ∀ n, P.File n → ¬ (s.phase n).Executed ∧ s.world.mtime n = w.mtime n := by
  have off : P.SettledOff (fun _ => False) w := fun n hn _ => hw n hn
  intro n hn
  exact off.idle tidy (fun _ _ _ hb => hb) (fun _ _ hm => hm.elim) h n hn id

/-- What the files `T` rest on. -/
def Below (P : Project ν) (T : ν → Prop) (n : ν) : Prop :=
  ∃ t, T t ∧ Relation.ReflTransGen P.Forces t n

/-- **Files are not remade that rest on nothing that is out of date**, if only recipes of what they
rest on change it. -/
theorem SettledOff.idle_above {T : ν → Prop} (hw : P.SettledOff (fun n => ¬ P.Below T n) w)
    (tidy : P.Tidy) (files : ∀ t, T t → P.File t)
    (own : ∀ m n, .change n ∈ P.recipe m → P.Below T n → P.Below T m)
    (h : P.system.Reachable w s) (ht : T t) : ¬ (s.phase t).Executed := by
  refine (hw.idle tidy (fun a b e hb ha => hb ?_) (fun m _ hm n hn hc => hm ?_) h t (files t ht)
    fun none => none ⟨t, ht, .refl⟩).1
  · exact ha.imp fun t ⟨ht, path⟩ => ⟨ht, path.tail e⟩
  · exact own m n hc (not_not.mp hn)

/-! ## A prerequisite that has become newer -/

/-- **A file that is older than a prerequisite is remade**, if no other recipe changes it. -/
theorem made_of_newer (tidy : P.Tidy) (h : P.system.Reachable w s) (hu : P.File u)
    (hf : P.Forces u f) (alone : ∀ m, .change u ∉ P.recipe m) (newer : w.mtime u < w.mtime f)
    (done : (s.phase u).Finished) : s.phase u = .made := by
  obtain ⟨cs, hcs⟩ := hf.recipe tidy hu
  have hr : P.recipe u ≠ [.create u] := by
    intro e
    simpa [List.append_eq_cons_iff] using hcs.symm.trans e
  have inv : s.phase u ≠ .kept ∧ (s.phase u = .idle → s.world.mtime u = w.mtime u) := by
    refine h.invariant (P := fun s => s.phase u ≠ .kept ∧
      (s.phase u = .idle → s.world.mtime u = w.mtime u)) (by simp [System.start]) ?_
    intro s s' hs ih step
    have hle := mtime_le_of_reachable hs f
    cases step with
    | make m idle | finish m running =>
      by_cases e : u = m
      · subst e
        simp
      · simpa [Function.update_of_ne e] using ih
    | keep m idle wanted ready may =>
      by_cases e : u = m
      · subst e
        -- nothing has changed `u`, so it is still older
        have same := ih.2 idle
        exact absurd (.inr (.inr ⟨f, hf, .inr (by omega)⟩)) may
      · simpa [Function.update_of_ne e] using ih
    | exec m c rest w' running does =>
      have hc : c ∈ P.recipe m := (hs.suffix running).subset (by simp)
      by_cases e : u = m
      · subst e
        simp
      · have same : w'.mtime u = s.world.mtime u := by
          refine does.mtime_eq ?_ ?_ ?_
          · rintro rfl
            exact e (tidy.eq_of_touch m u hc)
          · rintro rfl
            exact absurd (tidy.recipe_of_create m u hc) hr
          · rintro rfl
            exact alone m hc
        refine ⟨by simpa [Function.update_of_ne e] using ih.1, fun idle => ?_⟩
        rw [same]
        exact ih.2 (by simpa [Function.update_of_ne e] using idle)
  cases hp : s.phase u with
  | made => rfl
  | kept => exact absurd hp inv.1
  | idle | running cs => simp [hp] at done

/-! ## A run out of order -/

/-- The runs in which `f` is changed whenever it may be, and nothing else is. -/
def reckless (P : Project ν) (f : ν) : System ν (FileCmd ν) (Files ν) :=
  { P.system with
    exec := fun c w w' => c.Does w w' ∧ ∀ g, c = .change g → w' = if g = f then w.set f else w }

theorem exists_reckless (c : FileCmd ν) (w : Files ν) : ∃ w', (P.reckless f).exec c w w' := by
  cases c with
  | touch g => exact ⟨_, .touch g w, by simp⟩
  | create g =>
    by_cases h : w.mtime g = 0
    · exact ⟨_, .create h, by simp⟩
    · exact ⟨_, .found h, by simp⟩
  | change g =>
    by_cases h : g = f
    · subst h
      exact ⟨_, .change g w, by simp⟩
    · exact ⟨_, .leave g w, by simp [h]⟩

theorem step_of_reckless (h : (P.reckless f).Step s s') : P.system.Step s s' := by
  cases h with
  | make m idle wanted ready may => exact .make m idle wanted ready may
  | keep m idle wanted ready may => exact .keep m idle wanted ready may
  | exec m c rest w' running does => exact .exec m c rest w' running does.1
  | finish m running => exact .finish m running

theorem reachable_of_reckless (h : Relation.ReflTransGen (P.reckless f).Step s s')
    (hs : P.system.Reachable w s) : P.system.Reachable w s' :=
  Relation.ReflTransGen.trans hs (Relation.ReflTransGen.mono (fun _ _ => step_of_reckless) _ _ h)

/-- In such a run a file that is not created ahead of its recipe changes by its own recipe
only. -/
theorem reckless_mtime_eq (tidy : P.Tidy) {x : ν} {w w' : Files ν} (hx : x ≠ f)
    (hr : P.recipe x ≠ [.create x]) (hc : c ∈ P.recipe m) (hm : m ≠ x)
    (h : (P.reckless f).exec c w w') : w'.mtime x = w.mtime x := by
  by_cases e : c = .change x
  · rw [h.2 x e, if_neg hx]
  · refine h.1.mtime_eq ?_ ?_ e
    · rintro rfl
      exact hm (tidy.eq_of_touch m x hc).symm
    · rintro rfl
      exact absurd (tidy.recipe_of_create m x hc) hr

/-- What has not been considered is as it was. -/
theorem reckless_idle (tidy : P.Tidy) (hs : P.system.Reachable w s) {x : ν} (hx : x ≠ f)
    (hr : P.recipe x ≠ [.create x]) (step : (P.reckless f).Step s s') (h : s'.phase x = .idle) :
    s.phase x = .idle ∧ s'.world.mtime x = s.world.mtime x := by
  cases step with
  | make m | keep m | finish m =>
    by_cases e : x = m
    · subst e
      simp at h
    · exact ⟨by simpa [Function.update_of_ne e] using h, rfl⟩
  | exec m c rest w' running does =>
    by_cases e : x = m
    · subst e
      simp at h
    · exact ⟨by simpa [Function.update_of_ne e] using h,
        reckless_mtime_eq tidy hx hr ((hs.suffix running).subset (by simp)) (Ne.symm e) does⟩

/-- What has no rule is there. -/
def Leaves (P : Project ν) (s : State ν (FileCmd ν) (Files ν)) : Prop :=
  ∀ m, ¬ IsTarget P.rules m → s.world.mtime m ≠ 0

theorem Leaves.step (hs : P.Leaves s) (h : P.system.Step s s') : P.Leaves s' := by
  intro m hm
  have := hs m hm
  have := mtime_le_of_step h m
  omega

/-- What has no rule is there, as far as it is asked for. -/
def Stocked (P : Project ν) (w : Files ν) : Prop :=
  ∀ m, P.system.wanted m → ¬ IsTarget P.rules m → w.mtime m ≠ 0

theorem Leaves.stocked (hs : P.Leaves s) : P.Stocked s.world := fun m _ => hs m

theorem Stocked.step (hs : P.Stocked s.world) (h : P.system.Step s s') : P.Stocked s'.world := by
  intro m wanted hm
  have := hs m wanted hm
  have := mtime_le_of_step h m
  omega

/-- Then make is never stopped. -/
theorem Stocked.may (tidy : P.Tidy) (hs : P.Stocked s.world) (wanted : P.system.wanted n) :
    P.system.mayMake s n ∨ P.system.mayKeep s n := by
  by_cases h : P.OutOfDate s n
  · refine .inl ⟨?_, h⟩
    by_contra target
    rcases h with ph | h0 | ⟨b, hb, -⟩
    · exact target (tidy.rule_of_phony n ph)
    · exact hs n wanted target h0
    · exact target (hb.1.imp fun _ hr => ⟨hr.1, hr.2.1⟩)
  · exact .inr h

section OutOfOrder

theorem OutOfOrder.left_ne (h : P.OutOfOrder n f u) : n ≠ f := by
  rintro rfl
  exact h.unordered (.single h.forces.honours)

theorem OutOfOrder.right_ne (h : P.OutOfOrder n f u) : u ≠ f := by
  rintro rfl
  exact P.acyclic u (.single h.forces.honours)

theorem OutOfOrder.recipe_left (h : P.OutOfOrder n f u) : P.recipe n ≠ [.create n] := by
  intro e
  simpa [e] using h.changes

theorem OutOfOrder.recipe_right (h : P.OutOfOrder n f u) (tidy : P.Tidy) :
    P.recipe u ≠ [.create u] := by
  obtain ⟨cs, hcs⟩ := h.forces.recipe tidy h.dependent
  intro e
  simpa [List.append_eq_cons_iff] using hcs.symm.trans e

/-- `n` has changed `f` after `u` was finished, or is going to. -/
structure Late (P : Project ν) (n f u : ν) (s : State ν (FileCmd ν) (Files ν)) : Prop where
  finished : (s.phase u).Finished
  not_kept : s.phase n ≠ .kept
  missing : s.phase n = .idle → s.world.mtime n = 0
  pending : ∀ rest, s.phase n = .running rest →
    .change f ∈ rest ∨ s.world.mtime u < s.world.mtime f
  done : s.phase n = .made → s.world.mtime u < s.world.mtime f

/-- The situation stays as it is until `n` is made. -/
theorem Late.step (tidy : P.Tidy) (o : P.OutOfOrder n f u) (hs : P.system.Reachable w s)
    (h : P.Late n f u s) (step : (P.reckless f).Step s s') : P.Late n f u s' := by
  have keeps := (step_of_reckless step).phase_of_finished h.finished
  have finished : (s'.phase u).Finished := keeps ▸ h.finished
  have missing : s'.phase n = .idle → s'.world.mtime n = 0 := by
    intro idle
    obtain ⟨idle, htime⟩ := reckless_idle tidy hs o.left_ne o.recipe_left step idle
    rw [htime, h.missing idle]
  cases step with
  | make m idle =>
    by_cases e : n = m
    · subst e
      refine ⟨finished, by simp, missing, fun rest hr => .inl ?_, by simp⟩
      obtain rfl : (P.reckless f).recipe n = rest := by simpa using hr
      exact o.changes
    · exact ⟨finished, by simpa [e] using h.not_kept, missing, by simpa [e] using h.pending,
        by simpa [e] using h.done⟩
  | keep m idle wanted ready may =>
    by_cases e : n = m
    · subst e
      exact absurd (.inr (.inl (h.missing idle))) may
    · exact ⟨finished, by simpa [e] using h.not_kept, missing, by simpa [e] using h.pending,
        by simpa [e] using h.done⟩
  | finish m running =>
    by_cases e : n = m
    · subst e
      exact ⟨finished, by simp, missing, by simp,
        fun _ => (h.pending [] running).resolve_left (by simp)⟩
    · exact ⟨finished, by simpa [e] using h.not_kept, missing, by simpa [e] using h.pending,
        by simpa [e] using h.done⟩
  | exec m c rest w' running does =>
    have hmu : m ≠ u := by
      rintro rfl
      simpa [running] using h.finished
    have htu : w'.mtime u = s.world.mtime u :=
      reckless_mtime_eq tidy o.right_ne (o.recipe_right tidy) ((hs.suffix running).subset (by simp))
        hmu does
    have htf : s.world.mtime f ≤ w'.mtime f := does.1.le.2 f
    have hlt : s.world.mtime u < s.world.mtime f → w'.mtime u < w'.mtime f := by omega
    by_cases e : n = m
    · subst e
      refine ⟨finished, by simp, missing, fun rest' hr => ?_, by simp⟩
      obtain rfl : rest = rest' := by simpa using hr
      by_cases ec : c = .change f
      · -- this is the moment
        right
        have := s.world.le_clock u
        rw [htu, does.2 f ec, if_pos rfl, Files.set_mtime_self]
        omega
      · exact (h.pending _ running).imp (by simp [Ne.symm ec]) hlt
    · refine ⟨finished, by simpa [e] using h.not_kept, missing, ?_, ?_⟩
      · simp only [Function.update_of_ne e]
        exact fun rest hr => (h.pending rest hr).imp_right hlt
      · simp only [Function.update_of_ne e]
        exact fun hd => hlt (h.done hd)

/-- A file without a rule exists, every other one is missing. -/
noncomputable def blank (P : Project ν) : Files ν where
  mtime := by
    classical
    exact fun n => if IsTarget P.rules n then 0 else 1
  clock := 1
  le_clock n := by
    split <;> omega

theorem Leaves.of_run (hs : P.Leaves s) (run : Relation.ReflTransGen (P.reckless f).Step s s') :
    P.Leaves s' :=
  System.preserved (fun _ _ hs step => Leaves.step hs (step_of_reckless step)) run hs

/-- A reckless run can go on until a set of nodes is finished. -/
theorem exists_reckless_finished (tidy : P.Tidy) (hs : P.Stocked s.world) (C : Set ν)
    (fin : C.Finite) (closed : ∀ a ∈ C, ∀ b, P.system.Honours a b → b ∈ C)
    (wanted : ∀ n ∈ C, P.system.wanted n) (quiet : ∀ n ∈ C, ¬ (s.phase n).Running) :
    ∃ s', Relation.ReflTransGen (P.reckless f).Step s s' ∧ (∀ n ∈ C, (s'.phase n).Finished) ∧
      ∀ n ∉ C, s'.phase n = s.phase n :=
  System.exists_finished (S := P.reckless f) exists_reckless
    (P := fun s => P.Stocked s.world) (fun _ _ hs step => hs.step (step_of_reckless step))
    (fun _ _ hs wanted _ => hs.may tidy wanted) P.acyclic hs C fin closed wanted quiet

/-- **Make can complete** when nothing without a rule is missing. -/
theorem Stocked.exists_completed (hw : P.Stocked w) (tidy : P.Tidy) : ∃ s, P.Completed w s := by
  obtain ⟨s, run, done, -⟩ := exists_reckless_finished (f := P.goal) (s := System.start w) tidy hw
    {m | P.system.wanted m} (finite_descendants P.rules P.goal) (fun a ha b e => ha.tail e.1)
    (fun m hm => hm) (fun m _ => by simp [System.start, Phase.Running])
  exact ⟨s, reachable_of_reckless run .refl, done⟩

/-- From scratch make can come to `u` without considering `n`. -/
theorem OutOfOrder.exists_late (o : P.OutOfOrder n f u) (tidy : P.Tidy) :
    ∃ s, Relation.ReflTransGen (P.reckless f).Step (System.start P.blank) s ∧ P.Late n f u s ∧
      ∀ m, ¬ (s.phase m).Running := by
  have below : ∀ m, Relation.ReflTransGen P.system.Honours u m →
      Relation.ReflTransGen (Prereq P.rules) u m :=
    fun m h => Relation.ReflTransGen.mono (fun _ _ e => e.1) _ _ h
  have leaves : P.Leaves (System.start P.blank) := fun m hm => by simp [System.start, blank, hm]
  obtain ⟨s, run, done, other⟩ := exists_reckless_finished (f := f) tidy leaves.stocked
    {m | Relation.ReflTransGen P.system.Honours u m} ((finite_descendants P.rules u).subset below)
    (fun a ha b e => ha.tail e) (fun m hm => o.dependent.1.trans (below m hm))
    (fun m _ => by simp [System.start, Phase.Running])
  have idle : s.phase n = .idle := by
    refine other n fun h => ?_
    rcases Relation.reflTransGen_iff_eq_or_transGen.mp h with rfl | h
    · exact o.ne rfl
    · exact o.unordered h
  refine ⟨s, run, ⟨done u .refl, by simp [idle], fun _ => ?_, by simp [idle], by simp [idle]⟩, ?_⟩
  · refine (System.preserved (S := P.reckless f) (P := fun s => P.system.Reachable P.blank s ∧
      (s.phase n = .idle → s.world.mtime n = 0)) ?_ run ⟨.refl, ?_⟩).2 idle
    · rintro s s' ⟨hs, ih⟩ step
      refine ⟨hs.step (step_of_reckless step), fun idle => ?_⟩
      obtain ⟨idle, htime⟩ := reckless_idle tidy hs o.left_ne o.recipe_left step idle
      rw [htime, ih idle]
    · simp [System.start, blank, o.rule]
  · intro m hr
    by_cases hm : Relation.ReflTransGen P.system.Honours u m
    · exact hr.not_finished (done m hm)
    · rw [other m hm] at hr
      exact hr

/-- So a run completes in which `f` is changed after `u`. -/
theorem OutOfOrder.exists_completed (o : P.OutOfOrder n f u) (tidy : P.Tidy) :
    ∃ w s, P.Completed w s ∧ P.Leaves s ∧ s.world.mtime u < s.world.mtime f := by
  obtain ⟨s₁, run₁, late₁, quiet₁⟩ := o.exists_late tidy
  have leaves : P.Leaves (System.start P.blank) := fun m hm => by simp [System.start, blank, hm]
  have leaves₁ := leaves.of_run run₁
  obtain ⟨s₂, run₂, done₂, -⟩ := exists_reckless_finished (f := f) tidy leaves₁.stocked
    {m | P.system.wanted m} (finite_descendants P.rules P.goal) (fun a ha b e => ha.tail e.1)
    (fun m hm => hm) (fun m _ => quiet₁ m)
  have reach₁ : P.system.Reachable P.blank s₁ := reachable_of_reckless run₁ .refl
  have late₂ : P.Late n f u s₂ :=
    (System.preserved (S := P.reckless f) (P := fun s => P.system.Reachable P.blank s ∧
      P.Late n f u s) (fun s s' h step => ⟨h.1.step (step_of_reckless step),
        h.2.step tidy o h.1 step⟩) run₂ ⟨reach₁, late₁⟩).2
  refine ⟨P.blank, s₂, ⟨reachable_of_reckless run₂ reach₁, done₂⟩, leaves₁.of_run run₂, ?_⟩
  have done := done₂ n o.file.1
  cases hp : s₂.phase n with
  | made => exact late₂.done hp
  | kept => exact absurd hp late₂.not_kept
  | idle | running rest => simp [hp] at done

/-- Make can come to `u` while `u` is as it was. -/
theorem exists_ready (tidy : P.Tidy) (stocked : P.Stocked w) (hu : P.File u)
    (hr : P.recipe u ≠ [.create u]) (ne : u ≠ f) :
    ∃ s, Relation.ReflTransGen (P.reckless f).Step (System.start w) s ∧ P.system.Ready s u ∧
      s.phase u = .idle ∧ s.world.mtime u = w.mtime u := by
  obtain ⟨s, run, ready, idle⟩ := System.exists_ready (S := P.reckless f) exists_reckless
    (P := fun s => P.Stocked s.world) (fun _ _ hs step => hs.step (step_of_reckless step))
    (fun _ _ hs wanted _ => hs.may tidy wanted) P.acyclic (s := System.start w) stocked u
    (finite_descendants P.rules u) (fun m h => hu.1.trans h) (fun m => id)
  refine ⟨s, run, ready, idle, ?_⟩
  refine (System.preserved (S := P.reckless f) (P := fun s => P.system.Reachable w s ∧
    (s.phase u = .idle → s.world.mtime u = w.mtime u)) ?_ run ⟨.refl, fun _ => rfl⟩).2 idle
  rintro s s' ⟨hs, ih⟩ step
  refine ⟨hs.step (step_of_reckless step), fun idle => ?_⟩
  obtain ⟨idle, htime⟩ := reckless_idle tidy hs ne hr step idle
  rw [htime, ih idle]

/-- The next run finds `f` newer than `u`. -/
theorem OutOfOrder.exists_executed (o : P.OutOfOrder n f u) (tidy : P.Tidy)
    (leaves : P.Leaves (System.start w)) (newer : w.mtime u < w.mtime f) :
    ∃ s, P.system.Reachable w s ∧ (s.phase u).Executed := by
  obtain ⟨s, run, ready, idle, htime⟩ := exists_ready (f := f) tidy leaves.stocked o.dependent
    (o.recipe_right tidy) o.right_ne
  have reach : P.system.Reachable w s := reachable_of_reckless run .refl
  have newer : s.world.mtime u < s.world.mtime f := by
    rw [htime]
    exact newer.trans_le (mtime_le_of_reachable reach f)
  have target : IsTarget P.rules u := o.forces.1.imp fun _ hr => ⟨hr.1, hr.2.1⟩
  exact ⟨_, reach.step (.make u idle o.dependent.1 ready
    ⟨target, .inr (.inr ⟨f, o.forces, .inr newer⟩)⟩), by simp⟩

end OutOfOrder

/-- **A second run has nothing to do exactly if the files are in order.**  It is enough to
look at files `T` that are all the files with prerequisites. -/
theorem idle_iff_inOrder (tidy : P.Tidy) {T : ν → Prop} (hT : ∀ n, T n → P.File n)
    (hforces : ∀ n b, P.File n → P.Forces n b → T n) :
    (∀ w s, P.Completed w s → ∀ s', P.system.Reachable s.world s' →
      ∀ n, T n → ¬ (s'.phase n).Executed) ↔ P.InOrder := by
  constructor
  · intro h n f u hn rule hf hu huf hne
    by_contra path
    have o : P.OutOfOrder n f u := ⟨hn, rule, hf, hu, huf, hne, path⟩
    obtain ⟨w, s, hs, leaves, newer⟩ := o.exists_completed tidy
    obtain ⟨s', hs', hex⟩ := o.exists_executed tidy (w := s.world) leaves newer
    exact h w s hs s' hs' u (hforces u f hu huf) hex
  · intro ordered w s hs s' hs' n hn
    exact ((hs.settled tidy ordered).idle tidy hs' n (hT n hn)).1

end Project

end Make
