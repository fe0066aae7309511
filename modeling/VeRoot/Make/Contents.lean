import VeRoot.Make.Incremental

/-!
# What is in the files

Make compares times, but what matters is what the files have in them.  A file is right if a
clean build would write the same.  Make notices that a file is not right if a recipe that
writes it is due: its target is missing or older than a prerequisite, or a prerequisite is due.

A recipe may write more than its target.  Such files are right after a run only if the recipe
was executed to its end whenever its target was written.

## Main definitions

* `Disk`, `Write`, `execute` — the files, and what recipes write.
* `Build`, `Build.Runs` — runs of make, one node after another, up to a failure.
* `Sound` — a recipe writes what it should, provided that what it reads is right.
* `Plan` — the files that matter, and the targets that are responsible for them.
* `Plan.Minded` — whatever is not right has a target that is due.
* `Plan.Minded.finished`, `Plan.Minded.stopped`, `Plan.Minded.edit` — runs and edits.
-/

namespace Make

variable {φ V : Type*} [DecidableEq φ]

/-! ## Files and recipes -/

/-- The files, with what is in them. -/
structure Disk (φ V : Type*) extends Files φ where
  content : φ → V

/-- `v` is written to `f`. -/
def Disk.write (w : Disk φ V) (f : φ) (v : V) : Disk φ V where
  toFiles := w.toFiles.set f
  content := Function.update w.content f v

/-- A command that writes a file. -/
structure Write (φ V : Type*) where
  out : φ
  /-- What it writes, from what is in the files.  The command may fail. -/
  value : (φ → V) → Option V

/-- `touch f` -/
def Write.touch (f : φ) : Write φ V := ⟨f, fun x => some (x f)⟩

/-- `cp f g` -/
def Write.copy (f g : φ) : Write φ V := ⟨g, fun x => some (x f)⟩

omit [DecidableEq φ] in
@[simp] theorem Write.touch_out (f : φ) : (Write.touch f : Write φ V).out = f := rfl

omit [DecidableEq φ] in
@[simp] theorem Write.copy_out (f g : φ) : (Write.copy f g : Write φ V).out = g := rfl

/-- The commands are executed, each after the one before has succeeded. -/
def execute : List (Write φ V) → Disk φ V → Option (Disk φ V)
  | [], w => some w
  | c :: cs, w => (c.value w.content).bind fun v => execute cs (w.write c.out v)

/-- The files that a recipe writes. -/
def outs (cs : List (Write φ V)) : List φ := cs.map Write.out

section Execute

variable {w w' : Disk φ V} {f g : φ} {v : V} {c : Write φ V} {cs : List (Write φ V)}

@[simp] theorem Disk.write_content_self : (w.write f v).content f = v := Function.update_self ..

theorem Disk.write_content_of_ne (h : g ≠ f) : (w.write f v).content g = w.content g :=
  Function.update_of_ne h ..

@[simp] theorem Disk.write_mtime_self : (w.write f v).mtime f = w.clock + 1 :=
  Files.set_mtime_self

theorem Disk.write_mtime_of_ne (h : g ≠ f) : (w.write f v).mtime g = w.mtime g :=
  Files.set_mtime_of_ne h

@[simp] theorem Disk.write_clock : (w.write f v).clock = w.clock + 1 := rfl

theorem execute_cons_eq_some : execute (c :: cs) w = some w' ↔
    ∃ v, c.value w.content = some v ∧ execute cs (w.write c.out v) = some w' :=
  Option.bind_eq_some_iff

omit [DecidableEq φ] in
@[simp] theorem outs_cons : outs (c :: cs) = c.out :: outs cs := rfl

omit [DecidableEq φ] in
@[simp] theorem outs_append (ds : List (Write φ V)) : outs (cs ++ ds) = outs cs ++ outs ds :=
  List.map_append

/-- What a recipe does not write stays as it is. -/
theorem execute_of_notMem (h : execute cs w = some w') (hf : f ∉ outs cs) :
    w'.content f = w.content f ∧ w'.mtime f = w.mtime f := by
  induction cs generalizing w with
  | nil =>
    obtain rfl : w = w' := Option.some.inj h
    exact ⟨rfl, rfl⟩
  | cons c cs ih =>
    obtain ⟨v, -, rest⟩ := execute_cons_eq_some.mp h
    obtain ⟨ne, notMem⟩ := not_or.mp fun h => hf (List.mem_cons.mpr h)
    obtain ⟨content, mtime⟩ := ih rest notMem
    exact ⟨content.trans (Disk.write_content_of_ne ne), mtime.trans (Disk.write_mtime_of_ne ne)⟩

/-- No file becomes older, and time goes on. -/
theorem execute_le (h : execute cs w = some w') :
    w.clock ≤ w'.clock ∧ ∀ f, w.mtime f ≤ w'.mtime f := by
  induction cs generalizing w with
  | nil =>
    obtain rfl : w = w' := Option.some.inj h
    exact ⟨le_rfl, fun f => le_rfl⟩
  | cons c cs ih =>
    obtain ⟨v, -, rest⟩ := execute_cons_eq_some.mp h
    obtain ⟨clock, mtime⟩ := ih rest
    refine ⟨(Nat.le_succ _).trans clock, fun f => le_trans ?_ (mtime f)⟩
    by_cases e : f = c.out
    · subst e
      rw [Disk.write_mtime_self]
      exact (w.le_clock _).trans (Nat.le_succ _)
    · rw [Disk.write_mtime_of_ne e]

/-- What it writes is newer than everything before. -/
theorem lt_execute (h : execute cs w = some w') (hf : f ∈ outs cs) : w.clock < w'.mtime f := by
  induction cs generalizing w with
  | nil => cases hf
  | cons c cs ih =>
    obtain ⟨v, -, rest⟩ := execute_cons_eq_some.mp h
    by_cases later : f ∈ outs cs
    · exact (Nat.lt_succ_self _).trans (ih rest later)
    · obtain rfl : f = c.out := (List.mem_cons.mp hf).resolve_right later
      rw [(execute_of_notMem rest later).2, Disk.write_mtime_self]
      exact Nat.lt_succ_self _

end Execute

/-! ## Runs -/

/-- The graph, as far as times are compared along it, and the recipes. -/
structure Build (φ V : Type*) where
  /-- The normal prerequisites. -/
  tracks : φ → φ → Prop
  recipe : φ → List (Write φ V)
  /-- A recipe writes its target. -/
  touches : ∀ n, recipe n ≠ [] → n ∈ outs (recipe n)
  /-- What has prerequisites has a recipe. -/
  recipe_ne_nil : ∀ n b, tracks n b → recipe n ≠ []

namespace Build

variable (B : Build φ V)

/-- The target is missing, or older than a prerequisite. -/
def Outdated (w : Disk φ V) (n : φ) : Prop :=
  B.recipe n ≠ [] ∧ (w.mtime n = 0 ∨ ∃ b, B.tracks n b ∧ w.mtime n < w.mtime b)

/-- A run that considers the nodes one after another.  It finishes, or it stops after the given
commands of a recipe. -/
inductive Runs : List φ → Disk φ V → Option (List (Write φ V)) → Disk φ V → Prop
  | finished (w : Disk φ V) : Runs [] w none w
  /-- Make is interrupted. -/
  | stopped (ns : List φ) (w : Disk φ V) : Runs ns w (some []) w
  /-- Only what is up to date is left as it is. -/
  | keep {n : φ} {ns : List φ} {w w' : Disk φ V} {e : Option (List (Write φ V))}
      (upToDate : ¬ B.Outdated w n) (rest : Runs ns w e w') : Runs (n :: ns) w e w'
  /-- A recipe may be executed for other reasons as well. -/
  | make {n : φ} {ns : List φ} {w w₁ w' : Disk φ V} {e : Option (List (Write φ V))}
      (executed : execute (B.recipe n) w = some w₁) (rest : Runs ns w₁ e w') : Runs (n :: ns) w e w'
  /-- A recipe fails. -/
  | failed {n : φ} (ns : List φ) {w w' : Disk φ V} {pre post : List (Write φ V)}
      (recipe : B.recipe n = pre ++ post) (executed : execute pre w = some w') :
      Runs (n :: ns) w (some pre) w'

/-- A run that begins with nodes that are up to date. -/
theorem Runs.keepAll {B : Build φ V} {ns ms : List φ} {w w' : Disk φ V}
    {e : Option (List (Write φ V))} (upToDate : ∀ n ∈ ns, ¬ B.Outdated w n)
    (rest : B.Runs ms w e w') : B.Runs (ns ++ ms) w e w' := by
  induction ns with
  | nil => exact rest
  | cons n ns ih =>
    exact .keep (upToDate n List.mem_cons_self)
      (ih fun m hm => upToDate m (List.mem_cons_of_mem _ hm))

/-- Make will execute the recipe of `n`, if it still comes to the nodes `ahead`. -/
inductive Due (ahead : φ → Prop) (w : Disk φ V) : φ → Prop
  | outdated {n : φ} (hn : ahead n) (h : B.Outdated w n) : Due ahead w n
  | step {n m : φ} (hn : ahead n) (e : B.tracks n m) (h : Due ahead w m) : Due ahead w n

section Due

omit [DecidableEq φ]

variable {B} {ahead ahead' : φ → Prop} {w w' : Disk φ V} {n m p : φ}

theorem Due.mem (h : B.Due ahead w n) : ahead n := by
  cases h with
  | outdated hn | step hn => exact hn

theorem Due.mono (h : B.Due ahead w n) (le : ∀ n, ahead n → ahead' n) : B.Due ahead' w n := by
  induction h with
  | outdated hn h => exact .outdated (le _ hn) h
  | step hn e _ ih => exact .step (le _ hn) e ih

/-- The prerequisites are considered too. -/
theorem Due.within (h : B.Due ahead w n) (hn : ahead' n)
    (closed : ∀ n m, ahead' n → B.tracks n m → ahead' m) : B.Due ahead' w n := by
  induction h with
  | outdated _ h => exact .outdated hn h
  | step _ e _ ih => exact .step hn e (ih (closed _ _ hn e))

/-- A path of prerequisites leads to the newest file. -/
theorem Due.of_path (path : Relation.TransGen B.tracks n p)
    (newest : ∀ m, m ≠ p → w.mtime m < w.mtime p) (hp : ∀ b, ¬ B.tracks p b) :
    B.Due (fun _ => True) w n := by
  induction path using Relation.TransGen.head_induction_on with
  | single e =>
    refine .outdated trivial ⟨B.recipe_ne_nil _ _ e, .inr ⟨p, e, newest _ ?_⟩⟩
    rintro rfl
    exact hp _ e
  | head e _ ih => exact .step trivial e ih

end Due

section Execute

variable {B} {ahead : φ → Prop} {w w' : Disk φ V} {n m : φ} {cs : List (Write φ V)}

theorem Outdated.of_execute (h : B.Outdated w n) (run : execute cs w = some w')
    (hn : n ∉ outs cs) : B.Outdated w' n := by
  obtain ⟨recipe, old⟩ := h
  refine ⟨recipe, ?_⟩
  rw [(execute_of_notMem run hn).2]
  rcases old with missing | ⟨b, e, lt⟩
  · exact .inl missing
  · exact .inr ⟨b, e, lt.trans_le ((execute_le run).2 b)⟩

/-- A prerequisite is written. -/
theorem outdated_of_written (e : B.tracks n m) (run : execute cs w = some w')
    (hm : m ∈ outs cs) (hn : n ∉ outs cs) : B.Outdated w' n := by
  refine ⟨B.recipe_ne_nil _ _ e, .inr ⟨m, e, ?_⟩⟩
  rw [(execute_of_notMem run hn).2]
  exact (w.le_clock n).trans_lt (lt_execute run hm)

/-- **What is due stays due until its own target is written.** -/
theorem Due.of_execute (h : B.Due ahead w n) (run : execute cs w = some w') (hn : n ∉ outs cs) :
    B.Due ahead w' n := by
  induction h with
  | outdated ha h => exact .outdated ha (h.of_execute run hn)
  | @step n m ha e hm ih =>
    by_cases written : m ∈ outs cs
    · exact .outdated ha (outdated_of_written e run written hn)
    · exact .step ha e (ih written)

end Execute

end Build

/-! ## Recipes that write what they should -/

section Sound

variable (used : Set φ) (want : (φ → V) → φ → Option V)

/-- A file has in it what a clean build would write. -/
def Right (w : Disk φ V) (f : φ) : Prop := want w.content f = some (w.content f)

/-- The recipe writes what it should to the used files, if the files `K` are right. -/
inductive Sound : Set φ → List (Write φ V) → Prop
  | nil (K : Set φ) : Sound K []
  | right {K : Set φ} {c : Write φ V} {cs : List (Write φ V)}
      (value : ∀ x v, (∀ f ∈ K, want x f = some (x f)) → c.value x = some v →
        want x c.out = some v)
      (rest : Sound (insert c.out K) cs) : Sound K (c :: cs)
  /-- Other files it may use as it likes. -/
  | scratch {K : Set φ} {c : Write φ V} {cs : List (Write φ V)} (unused : c.out ∉ used)
      (rest : Sound (K \ {c.out}) cs) : Sound K (c :: cs)

variable {used} {want} {K K' : Set φ} {w w' : Disk φ V} {f : φ} {cs ds : List (Write φ V)}

omit [DecidableEq φ] in
/-- A recipe that writes no used file. -/
theorem Sound.of_unused (unused : ∀ f ∈ outs cs, f ∉ used) : Sound used want K cs := by
  induction cs generalizing K with
  | nil => exact .nil K
  | cons c cs ih =>
    exact .scratch (unused _ List.mem_cons_self)
      (ih fun f hf => unused f (List.mem_cons_of_mem _ hf))

omit [DecidableEq φ] in
theorem Sound.left (h : Sound used want K (cs ++ ds)) : Sound used want K cs := by
  induction cs generalizing K with
  | nil => exact .nil K
  | cons c cs ih =>
    cases h with
    | right value rest => exact .right value (ih rest)
    | scratch unused rest => exact .scratch unused (ih rest)

/-- **The used files that a sound recipe writes are right afterwards**, and so are those that
were right. -/
theorem Sound.execute (h : Sound used want K cs) (run : execute cs w = some w')
    (stable : ∀ x y : φ → V, (∀ p ∉ outs cs, x p = y p) → want x = want y)
    (hK : ∀ f ∈ K, Right want w f) (hf : f ∈ used)
    (known : f ∈ outs cs ∨ Right want w f) : Right want w' f := by
  induction cs generalizing K w with
  | nil =>
    obtain rfl : w = w' := Option.some.inj run
    exact known.resolve_left List.not_mem_nil
  | cons c cs ih =>
    obtain ⟨v, value, rest⟩ := execute_cons_eq_some.mp run
    have same : want (w.write c.out v).content = want w.content := by
      refine stable _ _ fun p hp => Disk.write_content_of_ne ?_
      rintro rfl
      exact hp (List.mem_cons_self)
    have other : ∀ g, g ≠ c.out → Right want w g → Right want (w.write c.out v) g := by
      intro g hg right
      rw [Right, same, Disk.write_content_of_ne hg]
      exact right
    have stable' : ∀ x y : φ → V, (∀ p ∉ outs cs, x p = y p) → want x = want y :=
      fun x y h => stable x y fun p hp => h p fun hp' => hp (List.mem_cons_of_mem _ hp')
    cases h with
    | right right sound =>
      have written : Right want (w.write c.out v) c.out := by
        rw [Right, same, Disk.write_content_self]
        exact right _ _ hK value
      refine ih sound rest stable' ?_ ?_
      · rintro g (rfl | hg)
        · exact written
        · by_cases e : g = c.out
          · exact e ▸ written
          · exact other g e (hK g hg)
      · by_cases e : f = c.out
        · exact .inr (e ▸ written)
        · exact known.imp (fun h => (List.mem_cons.mp h).resolve_left e) (other f e)
    | scratch unused sound =>
      have ne : f ≠ c.out := by
        rintro rfl
        exact unused hf
      refine ih sound rest stable' (fun g hg => other g hg.2 (hK g hg.1)) ?_
      exact known.imp (fun h => (List.mem_cons.mp h).resolve_left ne) (other f ne)

end Sound

/-! ## Who is responsible -/

/-- The files that matter, what should be in them, and the targets that are responsible. -/
structure Plan (φ V : Type*) [DecidableEq φ] extends Build φ V where
  used : Set φ
  /-- What a clean build writes. -/
  want : (φ → V) → φ → Option V
  /-- What a recipe reads of the used files. -/
  needs : φ → Set φ
  /-- The targets whose recipes are responsible for a file. -/
  guards : φ → Set φ
  guarded : ∀ f ∈ used, (guards f).Nonempty
  writes : ∀ f ∈ used, ∀ g ∈ guards f, f ∈ outs (recipe g)
  needs_used : ∀ n, needs n ⊆ used
  sound : ∀ n, Sound used want (needs n) (recipe n)
  /-- What is wanted depends on the files that no recipe writes. -/
  stable : ∀ x y : φ → V, (∀ p, (∀ n, p ∉ outs (recipe n)) → x p = y p) → want x = want y
  /-- Whoever writes the target of a responsible recipe writes the file as well. -/
  shared : ∀ f ∈ used, ∀ g ∈ guards f, ∀ n, g ∈ outs (recipe n) → f ∈ outs (recipe n)

namespace Plan

variable (P : Plan φ V)

/-- Prerequisites come first, and so do the targets that are responsible for what is read. -/
def Ordered : List φ → Prop
  | [] => True
  | n :: ns => (∀ b, P.tracks n b → b ∉ n :: ns) ∧
      (∀ f ∈ P.needs n, ∀ g ∈ P.guards f, g ∉ n :: ns) ∧ Ordered ns

/-- The nodes in the order in which make comes to them. -/
structure Complete (ns : List φ) : Prop where
  ordered : P.Ordered ns
  guards : ∀ f ∈ P.used, ∀ g ∈ P.guards f, g ∈ ns
  tracks : ∀ n m, n ∈ ns → P.tracks n m → m ∈ ns

/-- **Whatever is not right has a target that is due.** -/
def Minded (ahead : φ → Prop) (w : Disk φ V) : Prop :=
  ∀ f ∈ P.used, Right P.want w f ∨ ∃ g ∈ P.guards f, P.Due ahead w g

/-- A recipe that stops after the commands `pre` has written the target of no responsible recipe,
unless the files in question are right or have been written as well. -/
def Harmless (w : Disk φ V) (pre : List (Write φ V)) : Prop :=
  ∀ f ∈ P.used, ∀ g ∈ P.guards f, g ∈ outs pre → f ∈ outs pre ∨ Right P.want w f

/-- Make notices an edit: every file that it makes wrong has a target that is due afterwards. -/
def Noticed (w : Disk φ V) (p : φ) (v : V) : Prop :=
  ∀ f ∈ P.used, P.want (w.write p v).content f ≠ P.want w.content f →
    ∃ g ∈ P.guards f, P.Due (fun _ => True) (w.write p v) g

variable {P} {ahead : φ → Prop} {w w' : Disk φ V} {n p : φ} {v : V} {ns : List φ}
  {cs pre post : List (Write φ V)} {e : Option (List (Write φ V))}

/-! ## One recipe -/

/-- Some first commands of a recipe are executed. -/
theorem right_of_execute (recipe : P.recipe n = pre ++ post) (run : execute pre w = some w')
    (needs : ∀ f ∈ P.needs n, Right P.want w f) {f : φ} (hf : f ∈ P.used)
    (known : f ∈ outs pre ∨ Right P.want w f) : Right P.want w' f := by
  have sound : Sound P.used P.want (P.needs n) pre := (recipe ▸ P.sound n).left
  refine sound.execute run (fun x y same => P.stable x y fun p hp => same p fun h => ?_) needs hf
    known
  apply hp n
  rw [recipe, outs_append]
  exact List.mem_append_left _ h

/-- What the next recipe reads is right. -/
theorem Minded.needs (h : P.Minded (· ∈ n :: ns) w) (ordered : P.Ordered (n :: ns)) :
    ∀ f ∈ P.needs n, Right P.want w f := by
  intro f hf
  refine (h f (P.needs_used n hf)).resolve_right ?_
  rintro ⟨g, hg, due⟩
  exact ordered.2.1 f hf g hg due.mem

/-- Make leaves a node as it is. -/
theorem Minded.keep (h : P.Minded (· ∈ n :: ns) w) (ordered : P.Ordered (n :: ns))
    (upToDate : ¬ P.Outdated w n) : P.Minded (· ∈ ns) w := by
  have due : ∀ g, P.Due (· ∈ n :: ns) w g → g ≠ n ∧ P.Due (· ∈ ns) w g := by
    intro g hg
    induction hg with
    | @outdated g hg out =>
      have ne : g ≠ n := by
        rintro rfl
        exact upToDate out
      exact ⟨ne, .outdated ((List.mem_cons.mp hg).resolve_left ne) out⟩
    | @step g m hg e hm ih =>
      have ne : g ≠ n := by
        rintro rfl
        exact ordered.1 m e hm.mem
      exact ⟨ne, .step ((List.mem_cons.mp hg).resolve_left ne) e ih.2⟩
  intro f hf
  exact (h f hf).imp_right fun ⟨g, hg, dg⟩ => ⟨g, hg, (due g dg).2⟩

/-- Make executes a recipe. -/
theorem Minded.make (h : P.Minded (· ∈ n :: ns) w) (ordered : P.Ordered (n :: ns))
    (run : execute (P.recipe n) w = some w') : P.Minded (· ∈ ns) w' := by
  have right : ∀ f ∈ P.used, f ∈ outs (P.recipe n) ∨ Right P.want w f → Right P.want w' f :=
    fun f hf => right_of_execute (List.append_nil _).symm run (h.needs ordered) hf
  have due : ∀ g, P.Due (· ∈ n :: ns) w g → g ∉ outs (P.recipe n) → P.Due (· ∈ ns) w' g := by
    intro g hg
    induction hg with
    | @outdated g hg out =>
      intro unwritten
      have ne : g ≠ n := by
        rintro rfl
        exact unwritten (P.touches _ out.1)
      exact .outdated ((List.mem_cons.mp hg).resolve_left ne) (out.of_execute run unwritten)
    | @step g m hg e hm ih =>
      intro unwritten
      have ne : g ≠ n := by
        rintro rfl
        exact ordered.1 m e hm.mem
      have later : g ∈ ns := (List.mem_cons.mp hg).resolve_left ne
      by_cases written : m ∈ outs (P.recipe n)
      · exact .outdated later (Build.outdated_of_written e run written unwritten)
      · exact .step later e (ih written)
  intro f hf
  rcases h f hf with fine | ⟨g, hg, dg⟩
  · exact .inl (right f hf (.inr fine))
  · by_cases written : g ∈ outs (P.recipe n)
    · exact .inl (right f hf (.inl (P.shared f hf g hg n written)))
    · exact .inr ⟨g, hg, due g dg written⟩

/-- A recipe fails. -/
theorem Minded.failed (h : P.Minded (· ∈ n :: ns) w) (ordered : P.Ordered (n :: ns))
    (recipe : P.recipe n = pre ++ post) (run : execute pre w = some w')
    (harmless : P.Harmless w pre) : P.Minded (· ∈ n :: ns) w' := by
  have right : ∀ f ∈ P.used, f ∈ outs pre ∨ Right P.want w f → Right P.want w' f :=
    fun f hf => right_of_execute recipe run (h.needs ordered) hf
  intro f hf
  rcases h f hf with fine | ⟨g, hg, due⟩
  · exact .inl (right f hf (.inr fine))
  · by_cases written : g ∈ outs pre
    · exact .inl (right f hf (harmless f hf g hg written))
    · exact .inr ⟨g, hg, due.of_execute run written⟩

/-! ## Runs and edits -/

theorem Minded.mono {ahead' : φ → Prop} (h : P.Minded ahead w) (le : ∀ n, ahead n → ahead' n) :
    P.Minded ahead' w :=
  fun f hf => (h f hf).imp_right fun ⟨g, hg, due⟩ => ⟨g, hg, due.mono le⟩

/-- **When make has finished, everything is right.** -/
theorem Minded.finished (h : P.Minded (· ∈ ns) w) (ordered : P.Ordered ns)
    (run : P.Runs ns w none w') : ∀ f ∈ P.used, Right P.want w' f := by
  generalize end_ : (none : Option (List (Write φ V))) = e at run
  induction run with
  | finished w =>
    intro f hf
    refine (h f hf).resolve_right ?_
    rintro ⟨g, -, due⟩
    exact List.not_mem_nil due.mem
  | stopped | failed => cases end_
  | keep upToDate rest ih => exact ih (h.keep ordered upToDate) ordered.2.2 end_
  | make executed rest ih => exact ih (h.make ordered executed) ordered.2.2 end_

/-- **When it has stopped, make will notice what is not right**, unless the recipe that failed
has written a target too early. -/
theorem Minded.stopped (h : P.Minded (· ∈ ns) w) (ordered : P.Ordered ns)
    (run : P.Runs ns w (some pre) w') (harmless : P.Harmless w pre) :
    P.Minded (fun _ => True) w' := by
  generalize end_ : some pre = e at run
  induction run with
  | finished => cases end_
  | stopped ns w => exact h.mono fun _ _ => trivial
  | keep upToDate rest ih => exact ih (h.keep ordered upToDate) ordered.2.2 harmless end_
  | @make n ns w w₁ w' e executed rest ih =>
    refine ih (h.make ordered executed) ordered.2.2 (fun f hf g hg written => ?_) end_
    exact (harmless f hf g hg written).imp_right fun right =>
      right_of_execute (List.append_nil _).symm executed (h.needs ordered) hf (.inr right)
  | failed ns recipe executed =>
    obtain rfl := Option.some.inj end_
    exact (h.failed ordered recipe executed harmless).mono fun _ _ => trivial

/-- Make comes to everything that is due. -/
theorem Minded.complete (h : P.Minded (fun _ => True) w) (complete : P.Complete ns) :
    P.Minded (· ∈ ns) w := by
  intro f hf
  refine (h f hf).imp_right fun ⟨g, hg, due⟩ => ⟨g, hg, ?_⟩
  exact due.within (complete.guards f hf g hg) complete.tracks

theorem recipe_ne_nil_of_guards {f g : φ} (hf : f ∈ P.used) (hg : g ∈ P.guards f) :
    P.recipe g ≠ [] := by
  intro nil
  have written := P.writes f hf g hg
  rw [nil] at written
  exact List.not_mem_nil written

/-- Nothing is built yet. -/
theorem minded_of_missing (missing : ∀ f ∈ P.used, ∀ g ∈ P.guards f, w.mtime g = 0) :
    P.Minded (fun _ => True) w := by
  intro f hf
  obtain ⟨g, hg⟩ := P.guarded f hf
  exact .inr ⟨g, hg, .outdated trivial ⟨recipe_ne_nil_of_guards hf hg, .inl (missing f hf g hg)⟩⟩

/-- **An edit is noticed if the responsible targets lead to the file** by prerequisites. -/
theorem noticed_of_path (source : ∀ n, p ∉ outs (P.recipe n))
    (paths : ∀ f ∈ P.used, P.want (w.write p v).content f ≠ P.want w.content f →
      ∃ g ∈ P.guards f, Relation.TransGen P.tracks g p) : P.Noticed w p v := by
  intro f hf changed
  obtain ⟨g, hg, path⟩ := paths f hf changed
  refine ⟨g, hg, .of_path path (fun m hm => ?_) fun b e => ?_⟩
  · rw [Disk.write_mtime_self, Disk.write_mtime_of_ne hm]
    exact Nat.lt_succ_of_le (w.le_clock m)
  · exact source p (P.touches p (P.recipe_ne_nil p b e))

/-- **A file is edited.** -/
theorem Minded.edit (h : P.Minded (fun _ => True) w) (noticed : P.Noticed w p v)
    (source : ∀ n, p ∉ outs (P.recipe n)) : P.Minded (fun _ => True) (w.write p v) := by
  intro f hf
  by_cases same : P.want (w.write p v).content f = P.want w.content f
  · rcases h f hf with right | ⟨g, hg, due⟩
    · have ne : f ≠ p := by
        rintro rfl
        obtain ⟨g, hg⟩ := P.guarded f hf
        exact source g (P.writes f hf g hg)
      left
      rw [Right, same, Disk.write_content_of_ne ne]
      exact right
    · have ne : g ≠ p := by
        rintro rfl
        exact source g (P.touches g (recipe_ne_nil_of_guards hf hg))
      have run : execute [⟨p, fun _ => some v⟩] w = some (w.write p v) := rfl
      exact .inr ⟨g, hg, due.of_execute run fun h => ne (List.mem_singleton.mp h)⟩
  · exact .inr (noticed f hf same)

end Plan

end Make
