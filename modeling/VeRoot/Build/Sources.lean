import VeRoot.Build.Rebuild

/-!
# Sources and targets

`git_clone` and its siblings state the edge from the targets of the layer to the `SRCDEST`
file while they are being expanded.  Make expands `$($(L))` in that rule at once, so the
rule reaches the targets that are registered by then and no others.

## Main definitions

* `LayerFile.Hooks` — a declaration of a source follows the registration of a target.
* `FollowsSources` — every target of a layer depends on, and is remade with, every source.
* `followsSources_iff` — the main result.
-/

namespace VeRoot

open Make

/-- A source macro for `p` stands after the registration of the target `t`. -/
def LayerFile.Hooks (g : LayerFile) (t p : Path) : Prop :=
  ∃ ds ds', g.decls = ds ++ .source p :: ds' ∧ t ∈ Decl.targets ds

/-- Every target of the layer file `f` depends on every source of the layer, and is remade
when a source has changed. -/
structure FollowsSources (cfg : Config) (evs : Reading) (f : LayerFile) : Prop where
  /-- The `SRCDEST` file is a normal prerequisite. -/
  prerequisite : ∀ t ∈ f.targets, ∀ p ∈ f.sources,
    Normal (makefile cfg evs) (.target t) (.source p)
  /-- A `make` that completes remakes a target that is older than a source, provided that
  only its own recipe writes the target. -/
  remade : ∀ t ∈ f.targets, ∀ p ∈ f.sources, ∀ W writes, (∀ u, .target t ∉ writes u) →
    ∀ w s, (project cfg evs W writes).Completed w s →
      w.mtime (.target t) < w.mtime (.source p) → s.phase (.target t) = .made

section Sources

variable {cfg : Config} {evs : Reading} {f g : LayerFile} {W : Walk cfg evs}
  {writes : Path → List Node} {t p : Path}

theorem LayerFile.Hooks.target (h : g.Hooks t p) : t ∈ g.targets := by
  obtain ⟨ds, ds', hds, ht⟩ := h
  rw [LayerFile.targets, hds, Decl.targets, List.filterMap_append]
  exact List.mem_append_left _ ht

theorem LayerFile.Hooks.source (h : g.Hooks t p) : p ∈ g.sources := by
  obtain ⟨ds, ds', hds, -⟩ := h
  simp [LayerFile.sources, hds, Decl.sources]

/-- **A target depends on a source exactly if a source macro reaches it.** -/
theorem normal_source_iff :
    Normal (makefile cfg evs) (.target t) (.source p) ↔ ∃ g ∈ layersOf evs, g.Hooks t p := by
  rw [normal_makefile]
  constructor
  · rintro (⟨pre, g, post, rfl, e⟩ | ⟨pre, es, post, rfl, e⟩ | e)
    · cases e with
      | source hds ht => exact ⟨g, by simp [layersOf_append], _, _, hds, ht⟩
    · cases e
    · cases e
  · rintro ⟨g, hg, ds, ds', hds, ht⟩
    obtain ⟨pre, post, rfl⟩ := mem_layersOf.mp hg
    exact .inl ⟨pre, g, post, rfl, .source hds ht⟩

/-- In a recipe whose layers have targets of their own it is the layer's own macro. -/
theorem normal_source_iff_of_disjoint (hd : DisjointTargets evs) (hf : f ∈ layersOf evs)
    (ht : t ∈ f.targets) :
    Normal (makefile cfg evs) (.target t) (.source p) ↔ f.Hooks t p := by
  rw [normal_source_iff]
  constructor
  · rintro ⟨g, hg, h⟩
    obtain rfl := hd.eq hf hg ht h.target
    exact h
  · exact fun h => ⟨f, hf, h⟩

/-- A target that is older than a source it depends on is remade. -/
theorem made_of_source (hf : f ∈ layersOf evs) (ht : t ∈ f.targets)
    (h : Normal (makefile cfg evs) (.target t) (.source p)) (alone : ∀ u, .target t ∉ writes u)
    {w : Files Node} {s : State Node (FileCmd Node) (Files Node)}
    (run : (project cfg evs W writes).Completed w s)
    (newer : w.mtime (.target t) < w.mtime (.source p)) : s.phase (.target t) = .made := by
  have wanted : (project cfg evs W writes).system.wanted (.target t) := wanted_target hf ht
  refine Project.made_of_newer project_tidy run.1 ⟨wanted, fun ph => ph.1⟩
    (forces_leaf (.inr ⟨p, rfl⟩) h) ?_ newer (run.2 _ wanted)
  intro m hm
  obtain ⟨u, -, hu⟩ := change_mem_fileRecipe hm
  exact alone u hu

/-- The second half of `FollowsSources` comes from the first. -/
theorem followsSources_of_prerequisite (hf : f ∈ layersOf evs)
    (h : ∀ t ∈ f.targets, ∀ p ∈ f.sources, Normal (makefile cfg evs) (.target t) (.source p)) :
    FollowsSources cfg evs f :=
  ⟨h, fun t ht p hp _ _ alone _ _ run newer => made_of_source hf ht (h t ht p hp) alone run newer⟩

/-- **A layer follows its sources exactly if every target is registered before every source
is declared**, by the layer itself or by one that registers the same target. -/
theorem followsSources_iff (cfg : Config) (evs : Reading) (f : LayerFile) (hf : f ∈ layersOf evs) :
    FollowsSources cfg evs f ↔
      ∀ t ∈ f.targets, ∀ p ∈ f.sources, ∃ g ∈ layersOf evs, g.Hooks t p := by
  constructor
  · intro h t ht p hp
    exact normal_source_iff.mp (h.prerequisite t ht p hp)
  · intro h
    exact followsSources_of_prerequisite hf fun t ht p hp => normal_source_iff.mpr (h t ht p hp)

end Sources

/-! ## Two orders -/

/-- `recipes/jw-dev-env/layers/nvim.mk` clones first and registers later. -/
def nvim : LayerFile where
  name := "nvim"
  file := "nvim.mk"
  decls := [.source "nvim/neovim/.git/index", .target "nvim"]

/-- The same declarations, the other way round. -/
def nvimSwapped : LayerFile where
  name := "nvim"
  file := "nvim.mk"
  decls := [.target "nvim", .source "nvim/neovim/.git/index"]

/-- **The editor is not remade when its sources change**, and would be if the file registered
its target first. -/
theorem not_followsSources_nvim :
    ¬ FollowsSources ⟨false, false⟩ [.layer nvim] nvim ∧
      FollowsSources ⟨false, false⟩ [.layer nvimSwapped] nvimSwapped := by
  refine ⟨fun h => ?_, followsSources_of_prerequisite (.head _) (by decide)⟩
  have edge := h.prerequisite "nvim" (by decide) "nvim/neovim/.git/index" (by decide)
  revert edge
  decide

/-- With the target first the editor follows its sources. -/
theorem followsSources_nvimSwapped :
    FollowsSources ⟨false, false⟩ [.layer nvimSwapped] nvimSwapped := by
  refine (followsSources_iff _ _ nvimSwapped (.head _)).mpr fun t ht p hp => ?_
  obtain rfl : t = "nvim" := List.mem_singleton.mp ht
  obtain rfl : p = "nvim/neovim/.git/index" := List.mem_singleton.mp hp
  exact ⟨nvimSwapped, .head _, [.target "nvim"], [], rfl, ht⟩

end VeRoot
