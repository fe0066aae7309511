import VeRoot.Recipe.Inherit
import VeRoot.Engine.Variables

/-!
# Layer lookup

`select_layer` of `mk/build_recipe.mk` looks for the file of a layer below `$(TOP)`,
then below `$(RECIPE)`, then below `$(VEBASE)`.  `TOP` is set from `RECIPE_BASE` in
`mk/environment.mk`, which the `Makefile` includes before it sets `RECIPE_BASE`.
An entry without a file expands to `include` without an argument.

## Main definitions

* `TopVars`, `environmentMk`, `makefileHead` — how `TOP` comes by its value.
* `selectFile`, `selectLayer`, `includeLayers` — the lookup.
* `lookupAll` — the lookup that is meant: first match, or an error.
* `lookup_iff` — the main result.
* `reading` — what the layer engine comes to read.
-/

namespace VeRoot

/-- The file `dir/layers/entry.mk`, or `dir/layers/entry/entry.mk` if `nested`. -/
structure LayerPath where
  dir : Path
  entry : Entry
  nested : Bool
  deriving DecidableEq, Repr

/-- Which layer files exist. -/
abbrev LayerTree := LayerPath → Bool

/-! ## The value of TOP -/

/-- The two variables of the `Makefile` that name the configured recipe. -/
structure TopVars where
  /-- `RECIPE_BASE`, if it is set. -/
  recipeBase : Option Path := none
  /-- `TOP` -/
  top : Path := ""
  deriving DecidableEq, Repr

/-- `TOP:=$(RECIPE_BASE)` in `mk/environment.mk`. -/
def environmentMk (σ : TopVars) : TopVars := { σ with top := σ.recipeBase.getD "" }

/-- The `Makefile` up to the inclusion of the recipe: `mk/environment.mk`, and then
`RECIPE_BASE ?= $(BASE)/recipes/$(CONFIG_RECIPE)`. -/
def makefileHead (base configRecipe : String) (σ : TopVars) : TopVars :=
  let σ := environmentMk σ
  { σ with recipeBase := σ.recipeBase <|> some (base ++ "/recipes/" ++ configRecipe) }

/-! ## select_layer -/

/-- `$(call select_file,dir/layers/n.mk,dir/layers/n/n.mk)` -/
def selectFile (tree : LayerTree) (dir : Path) (n : Entry) : LayerPath :=
  if tree ⟨dir, n, false⟩ then ⟨dir, n, false⟩ else ⟨dir, n, true⟩

/-- `$(shell test -e p && echo -n p)` -/
def testFile (tree : LayerTree) (p : LayerPath) : Option LayerPath := if tree p then some p else none

/-- `$(_inc_layer)` -/
def selectLayer (tree : LayerTree) (top recipe vebase : Path) (n : Entry) : Option LayerPath :=
  testFile tree (selectFile tree top n) <|> testFile tree (selectFile tree recipe n) <|>
    testFile tree (selectFile tree vebase n)

/-- The files that the loop over `LAYERS` includes.  `include` without an argument does nothing. -/
def includeLayers (tree : LayerTree) (top recipe vebase : Path) (layers : List Entry) :
    Except Entry (List LayerPath) :=
  .ok (layers.filterMap (selectLayer tree top recipe vebase))

/-! ## The lookup that is meant -/

/-- The first file of `n` that exists below one of `dirs`. -/
def firstFile (tree : LayerTree) (dirs : List Path) (n : Entry) : Option LayerPath :=
  (dirs.flatMap fun d => [⟨d, n, false⟩, ⟨d, n, true⟩]).find? (tree ·)

/-- One file for every entry; an entry without a file is an error. -/
def lookupAll (tree : LayerTree) (dirs : List Path) : List Entry → Except Entry (List LayerPath)
  | [] => .ok []
  | n :: ns =>
    match firstFile tree dirs n with
    | none => .error n
    | some p => (lookupAll tree dirs ns).map (p :: ·)

/-- Where a recipe is read: `BASE`, `VEBASE`, `CONFIG_RECIPE`, and the `RECIPE` of the
recipe file that lists the layers. -/
structure Setup where
  base : Path
  vebase : Path
  configRecipe : String
  recipe : Path
  /-- `VEBASE` and `RECIPE` are values of `$(realpath …)`. -/
  vebase_ne : vebase ≠ ""
  recipe_ne : recipe ≠ ""

namespace Setup

variable (s : Setup)

/-- The directory of the configured recipe. -/
def topRecipe : Path := s.base ++ "/recipes/" ++ s.configRecipe

/-- `TOP`, when `RECIPE_BASE` is not preset. -/
def top : Path := (makefileHead s.base s.configRecipe {}).top

/-- The files that `mk/build_recipe.mk` includes for `layers` are the ones that are meant. -/
def LooksUp (tree : LayerTree) (layers : List Entry) : Prop :=
  includeLayers tree s.top s.recipe s.vebase layers =
    lookupAll tree [s.topRecipe, s.recipe, s.vebase] layers

end Setup

/-- Some file of `n` exists below `d`. -/
def HasFile (tree : LayerTree) (d : Path) (n : Entry) : Prop :=
  tree ⟨d, n, false⟩ = true ∨ tree ⟨d, n, true⟩ = true

instance (tree : LayerTree) (d : Path) (n : Entry) : Decidable (HasFile tree d n) :=
  inferInstanceAs (Decidable (_ ∨ _))

/-- The entry has a file below `RECIPE` or `VEBASE`, none below `/layers`, and none below the
configured recipe either, unless that is the recipe which lists it or the directory that is
searched next. -/
def FoundBelow (s : Setup) (tree : LayerTree) (n : Entry) : Prop :=
  (HasFile tree s.recipe n ∨ HasFile tree s.vebase n) ∧ ¬ HasFile tree "" n ∧
    (¬ HasFile tree s.topRecipe n ∨ s.recipe = s.topRecipe ∨
      (s.vebase = s.topRecipe ∧ ¬ HasFile tree s.recipe n))

section Lookup

variable {tree : LayerTree} {s : Setup} {d : Path} {n : Entry} {p : LayerPath}

/-- The file that `select_layer` finds below one directory. -/
def fileBelow (tree : LayerTree) (d : Path) (n : Entry) : Option LayerPath :=
  testFile tree (selectFile tree d n)

theorem fileBelow_eq : fileBelow tree d n =
    if tree ⟨d, n, false⟩ then some ⟨d, n, false⟩
    else if tree ⟨d, n, true⟩ then some ⟨d, n, true⟩ else none := by
  unfold fileBelow testFile selectFile
  split <;> simp_all

theorem fileBelow_eq_none : fileBelow tree d n = none ↔ ¬ HasFile tree d n := by
  rw [fileBelow_eq, HasFile]
  split_ifs <;> simp_all

theorem dir_of_fileBelow (h : fileBelow tree d n = some p) : p.dir = d := by
  rw [fileBelow_eq] at h
  split_ifs at h <;> · obtain rfl := Option.some.inj h; rfl

theorem selectLayer_eq (top recipe vebase : Path) : selectLayer tree top recipe vebase n =
    (fileBelow tree top n <|> fileBelow tree recipe n <|> fileBelow tree vebase n) := rfl

theorem firstFile_cons (ds : List Path) :
    firstFile tree (d :: ds) n = (fileBelow tree d n <|> firstFile tree ds n) := by
  rw [firstFile, firstFile, List.flatMap_cons, List.find?_append, fileBelow_eq, List.find?_cons,
    List.find?_cons]
  cases tree ⟨d, n, false⟩ <;> cases tree ⟨d, n, true⟩ <;> rfl

theorem Setup.top_eq : s.top = "" := rfl

theorem Setup.topRecipe_ne : s.topRecipe ≠ "" := by
  simp [topRecipe]

/-- `select_layer` finds the file that is meant exactly for the entries of `FoundBelow`. -/
theorem foundBelow_iff : FoundBelow s tree n ↔
    ∃ p, selectLayer tree s.top s.recipe s.vebase n = some p ∧
      firstFile tree [s.topRecipe, s.recipe, s.vebase] n = some p := by
  have dir_eq : ∀ {d d' p}, fileBelow tree d n = some p → fileBelow tree d' n = some p → d = d' :=
    fun h h' => (dir_of_fileBelow h).symm.trans (dir_of_fileBelow h')
  have some_of : ∀ {d}, HasFile tree d n → ∃ p, fileBelow tree d n = some p := fun h =>
    Option.ne_none_iff_exists'.mp fun h' => fileBelow_eq_none.mp h' h
  have has_of : ∀ {d p}, fileBelow tree d n = some p → HasFile tree d n := fun h => by
    by_contra h'
    rw [fileBelow_eq_none.mpr h'] at h
    cases h
  have nil : firstFile tree [] n = none := rfl
  simp only [selectLayer_eq, s.top_eq, firstFile_cons, nil, Option.orElse_eq_orElse,
    Option.orElse_eq_or, Option.or_none, Option.or_eq_some_iff, fileBelow_eq_none, FoundBelow]
  constructor
  · rintro ⟨hfound, hroot, htop⟩
    by_cases hr : HasFile tree s.recipe n
    · obtain ⟨p, hp⟩ := some_of hr
      refine ⟨p, .inr ⟨hroot, .inl hp⟩, ?_⟩
      rcases htop with ht | heq | ⟨-, hr'⟩
      · exact .inr ⟨ht, .inl hp⟩
      · exact .inl (heq ▸ hp)
      · exact absurd hr hr'
    · obtain ⟨p, hp⟩ := some_of (hfound.resolve_left hr)
      refine ⟨p, .inr ⟨hroot, .inr ⟨hr, hp⟩⟩, ?_⟩
      rcases htop with ht | heq | ⟨heq, -⟩
      · exact .inr ⟨ht, .inr ⟨hr, hp⟩⟩
      · exact .inr ⟨heq ▸ hr, .inr ⟨hr, hp⟩⟩
      · exact .inl (heq ▸ hp)
  · rintro ⟨p, hcode, hmeant⟩
    rcases hcode with ha | ⟨hroot, hcode⟩
    · -- a file below `/layers` is never the one that is meant
      rcases hmeant with h | ⟨-, h | ⟨-, h⟩⟩
      · exact absurd (dir_eq h ha) s.topRecipe_ne
      · exact absurd (dir_eq h ha) s.recipe_ne
      · exact absurd (dir_eq h ha) s.vebase_ne
    · refine ⟨hcode.imp has_of fun h => has_of h.2, hroot, ?_⟩
      rcases hmeant with ht | ⟨ht, -⟩
      · rcases hcode with hr | ⟨hr, hv⟩
        · exact .inr (.inl (dir_eq hr ht))
        · exact .inr (.inr ⟨dir_eq hv ht, hr⟩)
      · exact .inl ht

/-! ## A whole list -/

theorem length_of_lookupAll {dirs : List Path} {ns : List Entry} {ps : List LayerPath}
    (h : lookupAll tree dirs ns = .ok ps) : ps.length = ns.length := by
  induction ns generalizing ps with
  | nil =>
    obtain rfl : [] = ps := by simpa [lookupAll] using h
    rfl
  | cons n ns ih =>
    rw [lookupAll] at h
    split at h
    · cases h
    · cases hl : lookupAll tree dirs ns with
      | error e => simp [hl, Except.map] at h
      | ok qs =>
        obtain rfl : _ :: qs = ps := by simpa [hl, Except.map] using h
        simp [ih hl]

/-- Choosing a file for each entry agrees with the meant lookup exactly when it agrees on
every entry. -/
theorem filterMap_eq_lookupAll_iff {dirs : List Path} {select : Entry → Option LayerPath}
    {ns : List Entry} : .ok (ns.filterMap select) = lookupAll tree dirs ns ↔
      ∀ n ∈ ns, ∃ p, select n = some p ∧ firstFile tree dirs n = some p := by
  induction ns with
  | nil => simp [lookupAll]
  | cons n ns ih =>
    rw [List.forall_mem_cons, ← ih, lookupAll]
    cases hf : firstFile tree dirs n with
    | none => simp
    | some p =>
      cases hl : lookupAll tree dirs ns with
      | error e => simp [Except.map]
      | ok ps =>
        have hlen := length_of_lookupAll hl
        cases hs : select n with
        | none =>
          -- a dropped entry leaves a file too few
          have hle := List.length_filterMap_le select ns
          simp only [List.filterMap_cons, hs, Except.map, Except.ok.injEq]
          constructor
          · intro h
            simp [h] at hle
            omega
          · simp
        | some q => simp [hs, Except.map, eq_comm]

/-- **Layers are looked up rightly** exactly when every entry is found below `RECIPE` or
`VEBASE` and nothing stands below `/layers` or the configured recipe in its place. -/
theorem lookup_iff (s : Setup) (tree : LayerTree) (layers : List Entry) :
    s.LooksUp tree layers ↔ ∀ n ∈ layers, FoundBelow s tree n := by
  rw [Setup.LooksUp, includeLayers, filterMap_eq_lookupAll_iff]
  exact forall₂_congr fun n _ => foundBelow_iff.symm

/-! ## What make reads -/

/-- The file of an entry that is selected under the directory `d` of a recipe. -/
def layerFile (tree : LayerTree) (contents : LayerPath → LayerFile) (top vebase : Path)
    (e : Entry × Path) : Option LayerFile :=
  (selectLayer tree top e.2 vebase e.1).map contents

/-- What make reads while recipes are read. -/
def reading (tree : LayerTree) (contents : LayerPath → LayerFile) (top vebase : Path)
    (log : List RecipeEvent) : Reading :=
  log.flatMap fun
    | .select n d => ((layerFile tree contents top vebase (n, d)).map Event.layer).toList
    | .endRecipe ns => [.secondPass ns]

/-- The layers that make reads are the files of the entries it selects. -/
theorem layersOf_reading {contents : LayerPath → LayerFile} {top vebase : Path}
    (log : List RecipeEvent) : layersOf (reading tree contents top vebase log) =
      (selected log).filterMap (layerFile tree contents top vebase) := by
  induction log with
  | nil => rfl
  | cons e log ih =>
    rw [reading, List.flatMap_cons, layersOf_append, ← reading, ih]
    cases e with
    | select n d =>
      simp only [selected, List.filterMap_cons]
      cases layerFile tree contents top vebase (n, d) <;> simp
    | endRecipe ns => simp [selected]

/-- **What a chain of recipes comes to**: where it inherits, the engine reads the base's layer
files first. -/
theorem layersOf_chain {contents : LayerPath → LayerFile} {top vebase : Path}
    {files : Path → RecipeFile} {ds : List Path} (h : Inherits files (d :: ds)) :
    ∃ τ, readRecipe files (d :: ds).length d {} = some τ ∧
      layersOf (reading tree contents top vebase τ.log) =
        ((d :: ds).reverse.flatMap (listing files)).filterMap (layerFile tree contents top vebase) := by
  obtain ⟨τ, hτ, hsel⟩ := h d rfl _ le_rfl
  exact ⟨τ, hτ, by rw [layersOf_reading, hsel]⟩

end Lookup

/-- A recipe `product` whose base recipe lists the layers. -/
def productSetup : Setup :=
  { base := "/ve", vebase := "/ve", configRecipe := "product", recipe := "/ve/recipes/board"
    vebase_ne := by decide, recipe_ne := by decide }

/-- An entry without a file is dropped, and the configured recipe does not override. -/
theorem not_looksUp_product :
    ¬ productSetup.LooksUp (fun _ => false) ["kernel"] ∧
      ¬ productSetup.LooksUp (fun p => !p.nested && p.dir != "") ["kernel"] := by
  unfold Setup.LooksUp
  decide

end VeRoot
