import VeRoot.Build.Rebuild
import VeRoot.Engine.Acyclic
import VeRoot.Engine.Depends
import VeRoot.Make.Follow
import VeRoot.Rootfs.Layers

/-!
# Provisioning the root file system again

The recipe of `debian-provision` deletes `$(ROOTFS)` and creates it anew, so every layer that
has modified it must do so again.  Make sees this only from normal prerequisites: order does not
help, and a layer that does not lead to `debian-provision` is missing from then on.

## Main definitions

* `BuildAct` — what may happen between two builds.
* `Modifies` — the targets of the layers that modify the root file system.
* `Reprovisions` — a run that provisions executes all of their recipes afterwards.
* `reprovisions_iff` — the main result.
-/

namespace VeRoot

open Make

/-- A `make` that completes, an edit, or `make L_x.invalidate`. -/
inductive BuildAct
  /-- `make`, whose recipes may change `writes`, ends in the state `s`. -/
  | make (writes : Path → List Node) (s : State Node (FileCmd Node) (Files Node))
  | edit (n : Node)
  | invalidate (x : Name)

/-- A target of a layer that modifies the root file system. -/
def Modifies (c : RecipeTree) (evs : Reading) (n : Node) : Prop :=
  ∃ f ∈ layersOf evs, f ∈ rootfsLayers c ∧ ∃ t ∈ f.targets, n = .target t

namespace BuildAct

variable (c : RecipeTree) (cfg : Config) (evs : Reading) (W : Walk cfg evs)

/-- The files after an act. -/
def after (w : Files Node) : BuildAct → Files Node
  | .make _ s => s.world
  | .edit n => w.set n
  | .invalidate x => w.remove fun n => n ∈ (readAll cfg evs).targetNodes x

/-- Make completes, and what is edited is made by no rule. -/
def Happens (w : Files Node) : BuildAct → Prop
  | .make writes s => (project cfg evs W writes).Completed w s
  | .edit n => ¬ IsTarget (makefile cfg evs) n
  | .invalidate _ => True

/-- If the root file system is provisioned, everything that modifies it is remade, and is begun
when the provisioning is finished. -/
def Reapplies (w : Files Node) : BuildAct → Prop
  | .make writes s => s.phase (.target provisionStamp) = .made → ∀ n, Modifies c evs n →
      s.phase n = .made ∧ ∀ s', (project cfg evs W writes).system.Reachable w s' →
        Relation.ReflTransGen (project cfg evs W writes).system.Step s' s → s'.phase n ≠ .idle →
          (s'.phase (.target provisionStamp)).Finished
  | .edit _ | .invalidate _ => True

end BuildAct

/-- In every history that begins before the first build. -/
def Reprovisions (c : RecipeTree) (cfg : Config) (evs : Reading) (W : Walk cfg evs) : Prop :=
  ∀ w as, (∀ n, IsTarget (makefile cfg evs) n → w.mtime n = 0) →
    Along (BuildAct.after cfg evs) (BuildAct.Happens cfg evs W) w as →
      Along (BuildAct.after cfg evs) (BuildAct.Reapplies c cfg evs W) w as

section Reprovision

variable {c : RecipeTree} {cfg : Config} {evs : Reading} {W : Walk cfg evs}
  {writes : Path → List Node} {w : Files Node} {n : Node} {f : LayerFile} {t : Path}

/-! ## One build -/

/-- The modifications are files that make is asked for. -/
theorem Modifies.file (h : Modifies c evs n) : (project cfg evs W writes).File n := by
  obtain ⟨f, hf, -, t, ht, rfl⟩ := h
  exact file_of_registered ⟨f, hf, t, ht, rfl⟩

/-- No modification is the provisioning itself. -/
theorem Modifies.ne_provision (h : Modifies c evs n) : n ≠ .target provisionStamp := by
  obtain ⟨f, -, hf, t, ht, rfl⟩ := h
  rintro e
  obtain rfl : t = provisionStamp := by simpa using e
  have none : ∀ f ∈ rootfsLayers c, provisionStamp ∉ f.targets := by
    intro f hf
    have customise : ∀ b, provisionStamp ≠ customiseStamp b := by decide
    simp only [rootfsLayers, List.mem_cons, List.not_mem_nil, or_false] at hf
    rcases hf with rfl | rfl | rfl | rfl | rfl | rfl | rfl | rfl | rfl | rfl | rfl | rfl
    all_goals
      intro h
      simp only [LayerFile.targets, LayerFile.withInputs, Decl.targets, debianPackages,
        debianFullUpgrade, debianOsPatch, debianCustomise, debianConfigure, debianFixupLibs, debianDisableLogin,
        debianMinimise, debianDepmod, kernelModules, rootfsPermissions, rootfsConfigure,
        List.filterMap_cons, List.filterMap_nil, List.mem_cons, List.not_mem_nil, or_false,
        customise] at h <;> simp [provisionStamp] at h
  exact none f hf ht

/-- **A build reapplies what leads to the provisioning.** -/
theorem BuildAct.reapplies_of_path {a : BuildAct}
    (paths : ∀ n, Modifies c evs n → Relation.TransGen
      (fun a b => Normal (makefile cfg evs) a b ∧ ¬ W.drop a b) n (.target provisionStamp))
    (happens : a.Happens cfg evs W w) : a.Reapplies c cfg evs W w := by
  cases a with
  | make writes s =>
    intro made n hn
    have path : Relation.TransGen (project cfg evs W writes).Forces n (.target provisionStamp) :=
      paths n hn
    refine ⟨Project.Completed.made_of_path happens path hn.file.1 made, fun s' hs' _ begun => ?_⟩
    exact hs'.finished_of_path (Relation.TransGen.mono (fun _ _ e => e.honours) _ _ path) begun
  | edit | invalidate => trivial

/-! ## Histories -/

/-- **Build, invalidate, build**: what does not lead to the provisioning is missing. -/
theorem path_of_reprovisions (hp : current evs "debian-provision" = some debianProvision)
    (h : Reprovisions c cfg evs W) (hn : Modifies c evs n) : Relation.TransGen
      (fun a b => Normal (makefile cfg evs) a b ∧ ¬ W.drop a b) n (.target provisionStamp) := by
  by_contra no
  have hprov := (current_mem hp).1
  have registered : Registered evs (.target provisionStamp) :=
    ⟨_, hprov, provisionStamp, .head _, rfl⟩
  have forces : (project cfg evs W fun _ => []).Forces (.target provisionStamp)
      (.buildDir "debian-provision") := by
    obtain ⟨pre, post, rfl⟩ := mem_layersOf.mp hprov
    exact forces_leaf (.inl ⟨_, rfl⟩)
      (normal_makefile.mpr (.inl ⟨pre, debianProvision, post, rfl, .buildDir (.head _)⟩))
  have apart : ¬ Relation.ReflTransGen (project cfg evs W fun _ => []).Forces n
      (.target provisionStamp) := by
    intro path
    rcases Relation.reflTransGen_iff_eq_or_transGen.mp path with e | path
    · exact hn.ne_provision e.symm
    · exact no path
  obtain ⟨s₁, s₂, run₁, run₂, made, not_made⟩ := Project.exists_not_made project_tidy
    (fun m n hc => by
      obtain ⟨t, -, ht⟩ := change_mem_fileRecipe hc
      simp at ht)
    (file_of_registered registered) forces hn.file apart
  have gone : s₁.world.remove (fun n => n ∈ (readAll cfg evs).targetNodes "debian-provision") =
      s₁.world.remove (· = .target provisionStamp) := by
    have targets : (readAll cfg evs).targetNodes "debian-provision" = [.target provisionStamp] := by
      rw [Parse.targetNodes, readAll_layerTargets, hp]
      rfl
    rw [targets]
    simp
  rw [← gone] at run₂
  have hist := h (project cfg evs W fun _ => []).blank
    [.make (fun _ => []) s₁, .invalidate "debian-provision", .make (fun _ => []) s₂]
    (fun m hm => if_pos hm) ⟨run₁, trivial, run₂, trivial⟩
  exact not_made (hist.2.2.1 made n hn).1

/-- Targets of a layer without `DEPENDS` lead to each other only. -/
theorem target_of_path (hn : Distinct evs) (hd : DisjointTargets evs) (hf : f ∈ layersOf evs)
    (nil : f.depends = []) (ht : t ∈ f.targets) {u : Path}
    (path : Relation.TransGen (Normal (makefile cfg evs)) (.target t) (.target u)) :
    u ∈ f.targets := by
  have edge : ∀ t ∈ f.targets, ∀ u, Normal (makefile cfg evs) (.target t) (.target u) →
      u ∈ f.targets := by
    intro t ht u e
    obtain ⟨f', hf', g, hg, htf, hug, link⟩ := (normal_target_iff.mp e).exists_layers
    obtain rfl := hd.eq hf hf' ht htf
    rcases link with same | ⟨k, hk, hkn, hdep⟩
    · obtain rfl := hn.eq hf hg same
      exact hug
    · obtain rfl := hn.eq hf hk hkn.symm
      simp [nil] at hdep
  -- whatever else a target needs has no prerequisites
  have inside : ∀ a, Relation.TransGen (Normal (makefile cfg evs)) a (.target u) →
      ∀ t ∈ f.targets, a = .target t → u ∈ f.targets := by
    intro a path
    induction path using Relation.TransGen.head_induction_on with
    | single e =>
      rintro t ht rfl
      exact edge t ht u e
    | head e rest ih =>
      rintro t ht rfl
      rcases normal_of_target e with ⟨v, rfl⟩ | leaf
      · exact ih v (edge t ht v e) rfl
      · obtain ⟨d, e', -⟩ := Relation.TransGen.head'_iff.mp rest
        exact absurd e' (leaf d)
  exact inside _ path t ht rfl

/-- **A layer without `DEPENDS` is not reapplied.** -/
theorem not_reprovisions_of_depends_nil (hp : current evs "debian-provision" = some debianProvision)
    (hn : Distinct evs) (hd : DisjointTargets evs) (hf : f ∈ layersOf evs)
    (hroot : f ∈ rootfsLayers c) (nil : f.depends = []) (ht : t ∈ f.targets) : ¬ Reprovisions c cfg evs W := by
  intro h
  have path := path_of_reprovisions hp h ⟨f, hf, hroot, t, ht, rfl⟩
  have mem : provisionStamp ∈ f.targets :=
    target_of_path hn hd hf nil ht (Relation.TransGen.mono (fun _ _ e => e.1) _ _ path)
  have modifies : Modifies c evs (.target provisionStamp) := ⟨f, hf, hroot, _, mem, rfl⟩
  exact modifies.ne_provision rfl

/-- **Provisioning again reapplies every layer exactly if every target of every layer leads to
`debian-provision`** by normal prerequisites that make honours, that is by `DEPENDS` and by the
layer's own rules. -/
theorem reprovisions_iff (c : RecipeTree) (cfg : Config) (evs : Reading) (W : Walk cfg evs)
    (hp : current evs "debian-provision" = some debianProvision) :
    Reprovisions c cfg evs W ↔ ∀ n, Modifies c evs n → Relation.TransGen
      (fun a b => Normal (makefile cfg evs) a b ∧ ¬ W.drop a b) n (.target provisionStamp) := by
  constructor
  · exact fun h n hn => path_of_reprovisions hp h hn
  · intro paths w as _ happens
    exact happens.mono fun _ _ h => BuildAct.reapplies_of_path paths h

end Reprovision

/-! ## Two recipes -/

/-- A recipe without files of its own. -/
def bareTree : RecipeTree where
  recipe := "recipes/rpi"
  top := "recipes/rpi"
  config := "recipes/rpi/config.json"
  release := true
  encrypted := false
  present _ := false
  find _ := []

/-- Packages are installed and minimised. -/
def minimalReading : Reading :=
  [.layer debianDebootstrap, .layer debianProvision, .layer (debianPackages bareTree),
    .layer debianMinimise]

/-- Logins are disabled. -/
def lockedReading : Reading :=
  [.layer debianDebootstrap, .layer debianProvision, .layer debianDisableLogin]

theorem acyclic_minimal :
    ∀ evs ∈ [minimalReading, lockedReading], Acyclic (Prereq (makefile ⟨true, false⟩ evs)) := by
  have own : ∀ evs ∈ [minimalReading, lockedReading], ∀ f ∈ layersOf evs, ∀ e ∈ f.waits,
      ∀ e' ∈ f.waits, e.2 ≠ e'.1 := by decide
  have kept : ∀ evs ∈ [minimalReading, lockedReading],
      Distinct evs ∧ DisjointTargets evs ∧ Earlier evs := by decide
  intro evs hevs
  obtain ⟨hn, hd, he⟩ := kept evs hevs
  exact acyclic_of_earlier hn hd (fun f hf => acyclic_waits (own evs hevs f hf)) he

/-- Neither graph has a cycle. -/
def minimalWalk (evs : Reading) (h : evs ∈ [minimalReading, lockedReading]) :
    Walk ⟨true, false⟩ evs := .ofAcyclic (acyclic_minimal evs h)

/-- The packages and what is minimised follow the provisioning. -/
theorem reprovisions_minimal :
    Reprovisions bareTree ⟨true, false⟩ minimalReading (minimalWalk _ (.head _)) := by
  refine (reprovisions_iff _ _ _ _ (by decide)).mpr ?_
  have packages : ∀ t ∈ (debianPackages bareTree).targets,
      Normal (makefile ⟨true, false⟩ minimalReading) (.target t) (.target provisionStamp) := by
    decide
  have minimise : ∀ t ∈ debianMinimise.targets, Normal (makefile ⟨true, false⟩ minimalReading)
      (.target t) (.target "$(STAMP)/L_debian-packages/configure-apt") := by
    decide
  have base : debianDebootstrap ∉ rootfsLayers bareTree ∧
      debianProvision ∉ rootfsLayers bareTree := by
    decide
  rintro n ⟨f, hf, hroot, t, ht, rfl⟩
  rcases List.mem_cons.mp hf with rfl | hf
  · exact absurd hroot base.1
  rcases List.mem_cons.mp hf with rfl | hf
  · exact absurd hroot base.2
  rcases List.mem_pair.mp hf with rfl | rfl
  · exact .single ⟨packages t ht, id⟩
  · exact .tail (.single ⟨minimise t ht, id⟩) ⟨packages _ (.head _), id⟩

/-- **Logins are enabled again**: `debian-disable-login` has no `DEPENDS`. -/
theorem not_reprovisions_locked :
    ¬ Reprovisions bareTree ⟨true, false⟩ lockedReading (minimalWalk _ (.tail _ (.head _))) :=
  not_reprovisions_of_depends_nil (f := debianDisableLogin) (by decide) (by decide) (by decide)
    (.tail _ (.tail _ (.head _))) (by decide) (by decide) (.head _)

end VeRoot
