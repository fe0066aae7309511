import VeRoot.Engine.Edges
import Mathlib.Data.List.Pairwise

/-!
# Recipes that keep the rules

The README's rules for recipes, as predicates on what make reads, and what the
engine's variables come to under them: with distinct names a layer's `DEPENDS_L`
holds its own references only, `prevLayer` is the layer included just before, and
a reference to an earlier layer expands to that layer's targets.

## Main definitions

* `Distinct` — no two layer files share a name.
* `Earlier` — `DEPENDS` and `RUNAFTER` name layers that are already included.
* `DisjointTargets` — no file is registered by two layers.
* `pos`, `owner` — the position of a layer, and of the layer that owns a target.
-/

namespace VeRoot

open Make

/-- No two layer files share a name. -/
def Distinct (evs : Reading) : Prop := (namesOf evs).Nodup

/-- Every `DEPENDS` and `RUNAFTER` entry of `evs` names a layer included before it,
where `names` is included before `evs`. -/
def EarlierFrom (names : List Name) : Reading → Prop
  | [] => True
  | .layer f :: evs =>
    (∀ d ∈ f.depends ++ f.runafter, d ∈ names) ∧ EarlierFrom (names ++ [f.name]) evs
  | .secondPass _ :: evs => EarlierFrom names evs

/-- Every `DEPENDS` and `RUNAFTER` entry names a layer included before. -/
def Earlier (evs : Reading) : Prop := EarlierFrom [] evs

/-- No file is registered as a target by two layers. -/
def DisjointTargets (evs : Reading) : Prop :=
  (layersOf evs).Pairwise fun f g => ∀ t ∈ f.targets, t ∉ g.targets

instance (evs : Reading) : Decidable (Distinct evs) := inferInstanceAs (Decidable (List.Nodup _))

instance decidableEarlierFrom : ∀ (names : List Name) (evs : Reading),
    Decidable (EarlierFrom names evs)
  | _, [] => inferInstanceAs (Decidable True)
  | names, .layer f :: evs =>
    have := decidableEarlierFrom (names ++ [f.name]) evs
    inferInstanceAs (Decidable (_ ∧ _))
  | names, .secondPass _ :: evs => decidableEarlierFrom names evs

instance (evs : Reading) : Decidable (Earlier evs) := decidableEarlierFrom [] evs

instance (evs : Reading) : Decidable (DisjointTargets evs) :=
  inferInstanceAs (Decidable (List.Pairwise _ _))

theorem EarlierFrom.mem {names : List Name} {pre post : Reading} {f : LayerFile}
    (h : EarlierFrom names (pre ++ .layer f :: post)) {d : Name}
    (hd : d ∈ f.depends ∨ d ∈ f.runafter) : d ∈ names ++ namesOf pre := by
  induction pre generalizing names with
  | nil => simpa [namesOf] using h.1 d (List.mem_append.mpr hd)
  | cons e pre ih =>
    cases e with
    | layer g => simpa [namesOf] using ih h.2
    | secondPass es => simpa [namesOf] using ih h

section Position

variable {cfg : Config} {evs pre post : Reading} {f g : LayerFile} {d y : Name} {t u : Path}

theorem Earlier.mem (h : Earlier (pre ++ .layer f :: post)) (hd : d ∈ f.depends ∨ d ∈ f.runafter) :
    d ∈ namesOf pre :=
  EarlierFrom.mem h hd

theorem namesOf_split : namesOf (pre ++ .layer f :: post) = namesOf pre ++ f.name :: namesOf post := by
  simp [namesOf, layersOf_append]

theorem mem_namesOf : d ∈ namesOf evs ↔ ∃ g ∈ layersOf evs, g.name = d := by
  simp [namesOf]

/-! ## The variables of a layer with a new name -/

theorem Distinct.notMem (h : Distinct (pre ++ .layer f :: post)) : f.name ∉ namesOf pre := by
  rw [Distinct, namesOf_split] at h
  exact fun hm => (List.nodup_append.mp h).2.2 _ hm _ (by simp) rfl

theorem Distinct.of_append {es : Reading} (h : Distinct (pre ++ es)) : Distinct pre := by
  rw [Distinct, namesOf_append] at h
  exact (List.nodup_append.mp h).1

/-- `DEPENDS_L` of a layer with a new name holds its own `DEPENDS`. -/
theorem mem_dependsRefs (h : f.name ∉ namesOf pre) :
    d ∈ dependsRefs f.name (enterLayer f (readAll cfg pre)) ↔ d ∈ f.depends := by
  rw [dependsRefs_enterLayer, readAll_dependsOf, List.mem_append, mem_dependsSoFar]
  refine or_iff_right ?_
  rintro ⟨g, hg, hn, -⟩
  exact h (mem_namesOf.mpr ⟨g, hg, hn⟩)

/-- `prevLayer` is the layer that was included last. -/
theorem prevLayer_enterLayer (h : f.name ∉ namesOf pre) :
    prevLayer (enterLayer f (readAll cfg pre)).recipe = lastword (namesOf pre) := by
  rw [enterLayer_recipe, readAll_recipe, prevLayer, filterOut_lastword h]

theorem mem_runafterList (h : f.name ∉ namesOf pre) :
    d ∈ runafterList cfg (enterLayer f (readAll cfg pre)) ↔
      d ∈ f.runafter ∨ (cfg.parallelLayers = false ∧ lastword (namesOf pre) = some d) := by
  unfold runafterList
  rw [prevLayer_enterLayer h, enterLayer_runafter]
  cases cfg.parallelLayers <;> simp

/-- `RUNAFTER_L_y` is empty until some layer file named `y` is built. -/
theorem readAll_runafterOf (h : y ∉ namesOf evs) : (readAll cfg evs).runafterOf y = [] := by
  induction evs using List.reverseRecOn with
  | nil => rfl
  | append_singleton evs e ih =>
    rw [namesOf_append, List.mem_append, not_or] at h
    rw [readAll_concat]
    cases e with
    | layer f =>
      have hne : y ≠ f.name := by simpa [namesOf] using h.2
      simpa [read, readLayer, buildLayer, Function.update_of_ne hne] using ih h.1
    | secondPass es => exact ih h.1

theorem mem_runafterRefs (h : f.name ∉ namesOf pre) :
    d ∈ runafterRefs cfg f.name (enterLayer f (readAll cfg pre)) ↔
      cfg.parallelLayers = false ∧ (d ∈ f.runafter ∨ lastword (namesOf pre) = some d) := by
  unfold runafterRefs
  rw [enterLayer_runafterOf, readAll_runafterOf h]
  cases hp : cfg.parallelLayers
  · simp [mem_runafterList h, hp]
  · simp

/-- A reference of a layer being built expands to targets of a layer of that name. -/
theorem exists_of_mem_enterLayer
    (hu : u ∈ (enterLayer f (readAll cfg pre)).layerTargets d) :
    ∃ g, (g = f ∨ g ∈ layersOf pre) ∧ g.name = d ∧ u ∈ g.targets := by
  rw [enterLayer_layerTargets] at hu
  by_cases hd : d = f.name
  · subst hd
    exact ⟨f, .inl rfl, rfl, by simpa using hu⟩
  · rw [Function.update_of_ne hd] at hu
    obtain ⟨g, hg, hu⟩ := exists_of_mem_layerTargets hu
    exact ⟨g, .inr (current_mem hg).1, (current_mem hg).2, hu⟩

theorem exists_layer_of_mem_enterLayer (post : Reading)
    (hu : u ∈ (enterLayer f (readAll cfg pre)).layerTargets d) :
    ∃ g ∈ layersOf (pre ++ .layer f :: post), g.name = d ∧ u ∈ g.targets := by
  obtain ⟨g, rfl | hg, hn, hu⟩ := exists_of_mem_enterLayer hu
  · exact ⟨g, by simp [layersOf_append], hn, hu⟩
  · exact ⟨g, layersOf_subset _ _ hg, hn, hu⟩

/-- A reference to an earlier layer expands to targets of an earlier layer. -/
theorem exists_earlier_of_mem_enterLayer (h : f.name ∉ namesOf pre) (hd : d ∈ namesOf pre)
    (hu : u ∈ (enterLayer f (readAll cfg pre)).layerTargets d) :
    ∃ g ∈ layersOf pre, g.name = d ∧ u ∈ g.targets := by
  obtain ⟨g, rfl | hg, hn, hu⟩ := exists_of_mem_enterLayer hu
  · exact absurd (hn ▸ hd) h
  · exact ⟨g, hg, hn, hu⟩

/-- With distinct names the layer named `g.name` is `g`. -/
theorem Distinct.current (h : Distinct evs) (hg : g ∈ layersOf evs) :
    VeRoot.current evs g.name = some g := by
  induction evs using List.reverseRecOn with
  | nil => simp at hg
  | append_singleton evs e ih =>
    cases e with
    | layer f =>
      have hnew : f.name ∉ namesOf evs := Distinct.notMem (show Distinct (evs ++ .layer f :: []) from h)
      rw [current_concat_layer]
      rw [Distinct, namesOf_append] at h
      rw [layersOf_append, List.mem_append] at hg
      rcases hg with hg | hg
      · have ne : f.name ≠ g.name := fun e => hnew (e ▸ mem_namesOf.mpr ⟨g, hg, rfl⟩)
        rw [if_neg ne]
        exact ih (List.nodup_append.mp h).1 hg
      · obtain rfl : g = f := by simpa using hg
        exact if_pos rfl
    | secondPass es =>
      rw [Distinct, namesOf_append] at h
      have := ih (List.nodup_append.mp h).1 (by simpa [layersOf_append] using hg)
      simpa [VeRoot.current, layersOf_append] using this

/-- With distinct names, layers of one name are one layer. -/
theorem Distinct.eq (hn : Distinct evs) (hf : f ∈ layersOf evs) (hg : g ∈ layersOf evs)
    (h : f.name = g.name) : f = g := by
  have := (hn.current hf).symm.trans (h ▸ hn.current hg)
  exact Option.some.inj this

/-- With distinct names a reference expands to exactly the targets of its layer. -/
theorem Distinct.mem_layerTargets (h : Distinct evs) (hg : g ∈ layersOf evs) :
    u ∈ (readAll cfg evs).layerTargets g.name ↔ u ∈ g.targets := by
  rw [readAll_layerTargets, h.current hg]
  rfl

/-- With disjoint targets, layers that share a target are one layer. -/
theorem DisjointTargets.eq (hd : DisjointTargets evs) (hf : f ∈ layersOf evs)
    (hg : g ∈ layersOf evs) (htf : t ∈ f.targets) (htg : t ∈ g.targets) : f = g := by
  have : Std.Symm fun f g : LayerFile => ∀ t ∈ f.targets, t ∉ g.targets :=
    ⟨fun _ _ h t ht ht' => h t ht' ht⟩
  by_contra ne
  exact List.Pairwise.forall hd hf hg ne t htf htg

/-! ## Positions -/

/-- The position of the layer named `x`. -/
def pos (evs : Reading) (x : Name) : ℕ := (namesOf evs).idxOf x

/-- The position of the layer that registered the target `t`. -/
def owner (evs : Reading) (t : Path) : ℕ := (layersOf evs).findIdx (t ∈ ·.targets)

theorem pos_split (post : Reading) (h : f.name ∉ namesOf pre) :
    pos (pre ++ .layer f :: post) f.name = (layersOf pre).length := by
  rw [pos, namesOf_split, List.idxOf_append_of_notMem h]
  simp [namesOf]

/-- Earlier layers have smaller positions. -/
theorem pos_lt_of_mem (f : LayerFile) (post : Reading) (hy : y ∈ namesOf pre) :
    pos (pre ++ .layer f :: post) y < (layersOf pre).length := by
  rw [pos, namesOf_split, List.idxOf_append_of_mem hy]
  simpa [namesOf] using List.idxOf_lt_length_of_mem hy

theorem pos_lt_length (hy : y ∈ namesOf evs) : pos evs y < (layersOf evs).length := by
  simpa [pos, namesOf] using List.idxOf_lt_length_of_mem hy

/-- With disjoint targets, the owner of a target is the layer that registered it. -/
theorem owner_split (hd : DisjointTargets (pre ++ .layer f :: post)) (ht : t ∈ f.targets) :
    owner (pre ++ .layer f :: post) t = (layersOf pre).length := by
  rw [DisjointTargets, layersOf_append] at hd
  have none : (layersOf pre).findIdx (t ∈ ·.targets) = (layersOf pre).length := by
    refine List.findIdx_eq_length_of_false fun g hg => ?_
    simpa using fun htg => (List.pairwise_append.mp hd).2.2 g hg f (by simp) t htg ht
  rw [owner, layersOf_append, List.findIdx_append, none, if_neg (lt_irrefl _), layersOf_cons_layer,
    List.findIdx_cons]
  simp [ht]

theorem owner_eq_pos (h : Distinct evs) (hd : DisjointTargets evs) (hg : g ∈ layersOf evs)
    (ht : t ∈ g.targets) : owner evs t = pos evs g.name := by
  obtain ⟨pre, post, rfl⟩ := mem_layersOf.mp hg
  rw [owner_split hd ht, pos_split _ h.notMem]

end Position

end VeRoot
