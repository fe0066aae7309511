import VeRoot.Engine.Layer
import Mathlib.Data.List.Induction

/-!
# What the engine's variables hold

The value of each variable after any reading, as a function of the layer files
read.  `current evs y` is the layer file that defined `y` last: `$(L_y)` is its
target list, since `DEFINE_LAYER` empties `$(L)` again when a name is reused.

## Main definitions

* `declRules` — the rules of the source macros of a layer file.
* `layerRules` — every rule one layer file contributes.
* `eventRules` — every rule one event contributes.
* `mem_readAll_rules` — a rule of a reading is a rule of one of its events.
-/

namespace VeRoot

open Make

/-! ## Declarations -/

/-- The rules of the source macros among `ds`, when `ts` is registered already. -/
def declRules (ts : List Path) : List Decl → List (Rule Node)
  | [] => []
  | .target t :: ds => declRules (ts ++ [t]) ds
  | .source p :: ds =>
    [⟨[.source p], [], []⟩, ⟨ts.map .target, [.source p], []⟩] ++ declRules ts ds
  | .depends _ :: ds | .runafter _ :: ds => declRules ts ds

/-- All declarations of a layer file at once. -/
theorem foldl_declare (x : Name) (ds : List Decl) (σ : Parse) :
    ds.foldl (declare x) σ =
      { σ with
        layerTargets := Function.update σ.layerTargets x (σ.layerTargets x ++ Decl.targets ds)
        depends := σ.depends ++ Decl.dependsOn ds
        runafter := σ.runafter ++ Decl.runsAfter ds
        sourceCheckout := σ.sourceCheckout ++ Decl.sources ds
        rules := σ.rules ++ declRules (σ.layerTargets x) ds } := by
  induction ds generalizing σ with
  | nil => simp [Decl.targets, Decl.dependsOn, Decl.runsAfter, Decl.sources, declRules]
  | cons d ds ih =>
    rw [List.foldl_cons, ih]
    cases d <;>
      simp [declare, declRules, Decl.targets, Decl.dependsOn, Decl.runsAfter, Decl.sources,
        Parse.targetNodes]

section Enter

variable (f : LayerFile) (σ : Parse)

@[simp] theorem enterLayer_recipe : (enterLayer f σ).recipe = σ.recipe ++ [f.name] := by
  simp [enterLayer, foldl_declare, defineLayer]

@[simp] theorem enterLayer_layersIncluded :
    (enterLayer f σ).layersIncluded = σ.layersIncluded := by
  simp [enterLayer, foldl_declare, defineLayer]

@[simp] theorem enterLayer_layerTargets :
    (enterLayer f σ).layerTargets = Function.update σ.layerTargets f.name f.targets := by
  simp [enterLayer, foldl_declare, defineLayer, LayerFile.targets]

@[simp] theorem enterLayer_depends : (enterLayer f σ).depends = f.depends := by
  simp [enterLayer, foldl_declare, defineLayer, LayerFile.depends]

@[simp] theorem enterLayer_runafter : (enterLayer f σ).runafter = f.runafter := by
  simp [enterLayer, foldl_declare, defineLayer, LayerFile.runafter]

@[simp] theorem enterLayer_dependsOf : (enterLayer f σ).dependsOf = σ.dependsOf := by
  simp [enterLayer, foldl_declare, defineLayer]

@[simp] theorem enterLayer_runafterOf : (enterLayer f σ).runafterOf = σ.runafterOf := by
  simp [enterLayer, foldl_declare, defineLayer]

@[simp] theorem enterLayer_sourceCheckout :
    (enterLayer f σ).sourceCheckout = σ.sourceCheckout ++ f.sources := by
  simp [enterLayer, foldl_declare, defineLayer, LayerFile.sources]

@[simp] theorem enterLayer_errorInfo : (enterLayer f σ).errorInfo = σ.errorInfo := by
  simp [enterLayer, foldl_declare, defineLayer]

@[simp] theorem enterLayer_lowerdirs : (enterLayer f σ).lowerdirs = σ.lowerdirs := by
  simp [enterLayer, foldl_declare, defineLayer]

theorem enterLayer_rules :
    (enterLayer f σ).rules = σ.rules ++
      (layerCleanInvalidate f.name ++ layerPreamble f.name ++ layerOutro f.name) ++
      declRules [] f.decls := by
  simp [enterLayer, foldl_declare, defineLayer]

@[simp] theorem enterLayer_targetNodes_self :
    (enterLayer f σ).targetNodes f.name = f.targets.map .target := by
  simp [Parse.targetNodes]

end Enter

/-! ## One layer file -/

/-- Every rule the layer file `f` contributes when it is read in `σ`. -/
def layerRules (cfg : Config) (f : LayerFile) (σ : Parse) : List (Rule Node) :=
  layerCleanInvalidate f.name ++ layerPreamble f.name ++ layerOutro f.name ++
    declRules [] f.decls ++ buildLayerRules cfg f (enterLayer f σ) ++ ownRules f

/-- The names a layer's targets come to depend on. -/
theorem dependsRefs_enterLayer (f : LayerFile) (σ : Parse) :
    dependsRefs f.name (enterLayer f σ) = σ.dependsOf f.name ++ f.depends := by
  simp [dependsRefs]

section Layer

variable (cfg : Config) (f : LayerFile) (σ : Parse)

@[simp] theorem readLayer_recipe : (readLayer cfg f σ).recipe = σ.recipe ++ [f.name] := by
  simp [readLayer, buildLayer]

@[simp] theorem readLayer_layersIncluded :
    (readLayer cfg f σ).layersIncluded = σ.layersIncluded ++ [f.name] := by
  simp [readLayer, buildLayer]

@[simp] theorem readLayer_layerTargets :
    (readLayer cfg f σ).layerTargets = Function.update σ.layerTargets f.name f.targets := by
  simp [readLayer, buildLayer]

@[simp] theorem readLayer_dependsOf :
    (readLayer cfg f σ).dependsOf =
      Function.update σ.dependsOf f.name (σ.dependsOf f.name ++ f.depends) := by
  simp [readLayer, buildLayer, dependsRefs]

@[simp] theorem readLayer_sourceCheckout :
    (readLayer cfg f σ).sourceCheckout = σ.sourceCheckout ++ f.sources := by
  simp [readLayer, buildLayer]

theorem readLayer_rules : (readLayer cfg f σ).rules = σ.rules ++ layerRules cfg f σ := by
  simp [readLayer, buildLayer, layerRules, enterLayer_rules]

end Layer

/-! ## A whole reading -/

/-- Every rule one event contributes when it is read in `σ`. -/
def eventRules (cfg : Config) (σ : Parse) : Event → List (Rule Node)
  | .layer f => layerRules cfg f σ
  | .secondPass entries => entries.flatMap (evalLayerDepends σ)

theorem read_rules (cfg : Config) (σ : Parse) (e : Event) :
    (read cfg σ e).rules = σ.rules ++ eventRules cfg σ e := by
  cases e with
  | layer f => exact readLayer_rules cfg f σ
  | secondPass entries => rfl

theorem readAll_concat (cfg : Config) (evs : Reading) (e : Event) :
    readAll cfg (evs ++ [e]) = read cfg (readAll cfg evs) e := by
  simp [readAll]

/-- Rules are only ever added. -/
theorem readAll_rules_append (cfg : Config) (pre post : Reading) :
    (readAll cfg pre).rules ⊆ (readAll cfg (pre ++ post)).rules := by
  induction post using List.reverseRecOn with
  | nil => simp
  | append_singleton post e ih =>
    rw [← List.append_assoc, readAll_concat, read_rules]
    exact fun r hr => List.mem_append_left _ (ih hr)

/-- **A rule of a reading is a rule of one of its events**, as read in the variables
of the events before it. -/
theorem mem_readAll_rules {cfg : Config} {evs : Reading} {r : Rule Node} :
    r ∈ (readAll cfg evs).rules ↔
      ∃ pre e post, evs = pre ++ e :: post ∧ r ∈ eventRules cfg (readAll cfg pre) e := by
  constructor
  · induction evs using List.reverseRecOn with
    | nil => simp [readAll]
    | append_singleton evs e ih =>
      intro h
      rw [readAll_concat, read_rules] at h
      rcases List.mem_append.mp h with h | h
      · obtain ⟨pre, e', post, rfl, hr⟩ := ih h
        exact ⟨pre, e', post ++ [e], by simp, hr⟩
      · exact ⟨evs, e, [], rfl, h⟩
  · rintro ⟨pre, e, post, rfl, hr⟩
    have sub := readAll_rules_append cfg (pre ++ [e]) post
    rw [List.append_assoc, List.singleton_append] at sub
    refine sub ?_
    rw [readAll_concat, read_rules]
    exact List.mem_append_right _ hr

theorem layersOf_append (evs evs' : Reading) :
    layersOf (evs ++ evs') = layersOf evs ++ layersOf evs' := by
  simp [layersOf]

theorem namesOf_append (evs evs' : Reading) :
    namesOf (evs ++ evs') = namesOf evs ++ namesOf evs' := by
  simp [namesOf, layersOf_append]

/-- Reading on only adds layers. -/
theorem layersOf_subset (pre post : Reading) : layersOf pre ⊆ layersOf (pre ++ post) := by
  rw [layersOf_append]
  exact List.subset_append_left _ _

@[simp] theorem layersOf_nil : layersOf [] = [] := rfl

@[simp] theorem layersOf_cons_layer (f : LayerFile) (evs : Reading) :
    layersOf (.layer f :: evs) = f :: layersOf evs := rfl

@[simp] theorem layersOf_cons_secondPass (entries : List Name) (evs : Reading) :
    layersOf (.secondPass entries :: evs) = layersOf evs := rfl

/-- A layer of a reading stands somewhere in it. -/
theorem mem_layersOf {evs : Reading} {f : LayerFile} :
    f ∈ layersOf evs ↔ ∃ pre post, evs = pre ++ .layer f :: post := by
  constructor
  · intro h
    have he : Event.layer f ∈ evs := by
      simp only [layersOf, List.mem_filterMap] at h
      obtain ⟨e, he, hf⟩ := h
      cases e <;> simp_all
    exact List.append_of_mem he
  · rintro ⟨pre, post, rfl⟩
    simp [layersOf_append]

/-- `$(recipe)` lists the layers in the order they were included. -/
theorem readAll_recipe (cfg : Config) (evs : Reading) :
    (readAll cfg evs).recipe = namesOf evs := by
  induction evs using List.reverseRecOn with
  | nil => rfl
  | append_singleton evs e ih =>
    rw [readAll_concat, namesOf_append]
    cases e <;> simp [read, secondPass, ih, namesOf]

/-- So does `$(LAYERS_INCLUDED)`. -/
theorem readAll_layersIncluded (cfg : Config) (evs : Reading) :
    (readAll cfg evs).layersIncluded = namesOf evs := by
  induction evs using List.reverseRecOn with
  | nil => rfl
  | append_singleton evs e ih =>
    rw [readAll_concat, namesOf_append]
    cases e <;> simp [read, secondPass, ih, namesOf]

/-- `$(source-checkout)` lists the files that the layers fetch. -/
theorem readAll_sourceCheckout (cfg : Config) (evs : Reading) :
    (readAll cfg evs).sourceCheckout = (layersOf evs).flatMap LayerFile.sources := by
  induction evs using List.reverseRecOn with
  | nil => rfl
  | append_singleton evs e ih =>
    rw [readAll_concat, layersOf_append]
    cases e <;> simp [read, secondPass, ih, layersOf]

/-- The layer file that defined `y` last. -/
def current (evs : Reading) (y : Name) : Option LayerFile :=
  (layersOf evs).reverse.find? (·.name = y)

theorem current_concat_layer (evs : Reading) (f : LayerFile) (y : Name) :
    current (evs ++ [.layer f]) y = if f.name = y then some f else current evs y := by
  simp only [current, layersOf_append, layersOf_cons_layer, layersOf_nil, List.reverse_append,
    List.reverse_singleton, List.singleton_append, List.find?_cons]
  split <;> simp_all

theorem current_mem {evs : Reading} {y : Name} {f : LayerFile} (h : current evs y = some f) :
    f ∈ layersOf evs ∧ f.name = y := by
  have hm := List.mem_of_find?_eq_some h
  have hp := List.find?_some h
  exact ⟨by simpa using hm, by simpa using hp⟩

/-- **`$(L_y)` is the target list of the layer file that defined `y` last.** -/
theorem readAll_layerTargets (cfg : Config) (evs : Reading) (y : Name) :
    (readAll cfg evs).layerTargets y = ((current evs y).map LayerFile.targets).getD [] := by
  induction evs using List.reverseRecOn with
  | nil => rfl
  | append_singleton evs e ih =>
    rw [readAll_concat]
    cases e with
    | layer f =>
      rw [current_concat_layer]
      by_cases h : f.name = y
      · subst h; simp [read]
      · simp [read, h, Function.update_of_ne (Ne.symm h), ih]
    | secondPass entries =>
      simpa [read, secondPass, current, layersOf_append] using ih

/-- The names that layer files named `y` appended to `DEPENDS`. -/
def dependsSoFar (evs : Reading) (y : Name) : List Name :=
  ((layersOf evs).filter (·.name = y)).flatMap LayerFile.depends

/-- **`DEPENDS_L_y` accumulates over every layer file named `y`.** -/
theorem readAll_dependsOf (cfg : Config) (evs : Reading) (y : Name) :
    (readAll cfg evs).dependsOf y = dependsSoFar evs y := by
  induction evs using List.reverseRecOn with
  | nil => rfl
  | append_singleton evs e ih =>
    rw [readAll_concat]
    cases e with
    | layer f =>
      by_cases h : f.name = y
      · subst h; simp [read, ih, dependsSoFar, layersOf_append, List.filter_append]
      · simpa [read, h, Function.update_of_ne (Ne.symm h), dependsSoFar, layersOf_append,
          List.filter_append] using ih
    | secondPass entries =>
      simpa [read, secondPass, dependsSoFar, layersOf_append] using ih

theorem mem_dependsSoFar {evs : Reading} {y d : Name} :
    d ∈ dependsSoFar evs y ↔ ∃ f ∈ layersOf evs, f.name = y ∧ d ∈ f.depends := by
  simp [dependsSoFar, and_assoc]

/-- `$(L_y)` is empty until some layer file defines `y`. -/
theorem exists_of_mem_layerTargets {cfg : Config} {evs : Reading} {y : Name} {t : Path}
    (h : t ∈ (readAll cfg evs).layerTargets y) :
    ∃ f, current evs y = some f ∧ t ∈ f.targets := by
  rw [readAll_layerTargets] at h
  cases hc : current evs y with
  | none => simp [hc] at h
  | some f => exact ⟨f, rfl, by simpa [hc] using h⟩

end VeRoot
