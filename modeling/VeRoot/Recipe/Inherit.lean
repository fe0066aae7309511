import VeRoot.Engine.Layer

/-!
# Recipe inheritance

A recipe file includes `mk/define_recipe.mk`, may set `BASE_RECIPE`, appends to
`LAYERS` and includes `mk/build_recipe.mk`, which reads the base recipe first and
then the recipe's own layers.  The outer recipe's `RECIPE` and `LAYERS` wait in
`TOP_RECIPE` and `TOP_RECIPE_LAYERS` meanwhile.  These are two global variables, so
a base recipe that has a base of its own overwrites them.

## Main definitions

* `RecipeVars`, `defineRecipe`, `buildRecipe`, `readRecipe` — the fragments.
* `Chain` — a recipe, its base, the base's base, and so on.
* `Inherits` — every recipe's layers, base first, each under its own `RECIPE`.
* `inherits_iff` — the main result.
-/

namespace VeRoot

/-- A word of `LAYERS`. -/
abbrev Entry := String

/-- What happens while recipes are read. -/
inductive RecipeEvent
  /-- `select_layer` runs for an entry while `RECIPE` is `recipe`. -/
  | select (entry : Entry) (recipe : Path)
  /-- `eval_layer_depends` runs for the entries of `LAYERS`. -/
  | endRecipe (entries : List Entry)
  deriving DecidableEq, Repr

/-- A recipe file, known by its directory: what it sets `BASE_RECIPE` to, and what it
appends to `LAYERS`. -/
structure RecipeFile where
  /-- The directory of the base recipe. -/
  base : Option Path := none
  layers : List Entry := []
  deriving DecidableEq, Repr

/-- The make variables of the two fragments. -/
structure RecipeVars where
  /-- `RECIPE` -/
  recipe : Path := ""
  /-- `LAYERS` -/
  layers : List Entry := []
  /-- `BASE_RECIPE` -/
  baseRecipe : Option Path := none
  /-- `BASE_INCLUDE` -/
  baseInclude : Option Path := none
  /-- `TOP_RECIPE` -/
  topRecipe : Path := ""
  /-- `TOP_RECIPE_LAYERS` -/
  topRecipeLayers : List Entry := []
  log : List RecipeEvent := []
  deriving DecidableEq, Repr

/-- `mk/define_recipe.mk` -/
def defineRecipe (d : Path) (σ : RecipeVars) : RecipeVars := { σ with recipe := d, layers := [] }

/-- The two loops over `LAYERS` at the end of `mk/build_recipe.mk`. -/
def selectLayers (σ : RecipeVars) : RecipeVars :=
  { σ with
    log := σ.log ++ σ.layers.map (.select · σ.recipe) ++ [.endRecipe σ.layers]
    layers := [] }

/-- `mk/build_recipe.mk`, where `readBase` reads the recipe file of a directory. -/
def buildRecipe (readBase : Path → RecipeVars → Option RecipeVars) (σ : RecipeVars) :
    Option RecipeVars :=
  match σ.baseRecipe with
  | none => some (selectLayers σ)
  | some b =>
    let σ := { σ with
      baseInclude := some b, baseRecipe := none, topRecipe := σ.recipe, topRecipeLayers := σ.layers }
    (readBase b σ).map fun τ => selectLayers { τ with recipe := τ.topRecipe, layers := τ.topRecipeLayers }

/-- The recipe file of the directory `d`.  A recipe without a base leaves `BASE_RECIPE` alone.
The fuel bounds the nesting of includes. -/
def readRecipe (files : Path → RecipeFile) : ℕ → Path → RecipeVars → Option RecipeVars
  | 0, _, _ => none
  | n + 1, d, σ =>
    let σ := defineRecipe d σ
    buildRecipe (readRecipe files n)
      { σ with
        baseRecipe := (files d).base <|> σ.baseRecipe
        layers := σ.layers ++ (files d).layers }

/-- The entries that were selected, each with the `RECIPE` of that moment, which is what
`target_properties` gives the layer's targets. -/
def selected (log : List RecipeEvent) : List (Entry × Path) :=
  log.filterMap fun | .select n d => some (n, d) | .endRecipe _ => none

/-- Each recipe of the list is the base of the one before it, and the last has none. -/
def Chain (files : Path → RecipeFile) : List Path → Prop
  | [] => False
  | [d] => (files d).base = none
  | d :: e :: ds => (files d).base = some e ∧ Chain files (e :: ds)

/-- The layers that a recipe lists, under its own directory. -/
def listing (files : Path → RecipeFile) (d : Path) : List (Entry × Path) :=
  (files d).layers.map (·, d)

/-- Reading the first recipe of a chain selects the layers of the last, then those of
the last but one, and so on, each under the directory of the recipe that lists it. -/
def Inherits (files : Path → RecipeFile) (chain : List Path) : Prop :=
  ∀ d, chain.head? = some d → ∀ fuel, chain.length ≤ fuel →
    ∃ τ, readRecipe files fuel d {} = some τ ∧
      selected τ.log = chain.reverse.flatMap (listing files)

section Chain

variable {files : Path → RecipeFile} {b d : Path} {ds es us : List Path} {σ : RecipeVars}

/-- A recipe has one chain. -/
theorem Chain.eq (h : Chain files (d :: ds)) (h' : Chain files (d :: es)) : ds = es := by
  induction ds generalizing d es with
  | nil =>
    have none : (files d).base = none := h
    cases es with
    | nil => rfl
    | cons e es => exact absurd (none.symm.trans h'.1) (by simp)
  | cons e ds ih =>
    cases es with
    | nil =>
      have none : (files d).base = none := h'
      exact absurd (none.symm.trans h.1) (by simp)
    | cons e' es =>
      obtain rfl : e = e' := Option.some.inj (h.1.symm.trans h'.1)
      rw [ih h.2 h'.2]

theorem Chain.of_append (h : Chain files (us ++ d :: ds)) : Chain files (d :: ds) := by
  induction us with
  | nil => exact h
  | cons u us ih =>
    cases us with
    | nil => exact h.2
    | cons v us => exact ih h.2

/-- No recipe is its own base, however indirectly. -/
theorem Chain.nodup (h : Chain files ds) : ds.Nodup := by
  induction ds with
  | nil => exact List.nodup_nil
  | cons d ds ih =>
    refine List.nodup_cons.mpr ⟨fun hd => ?_, ?_⟩
    · obtain ⟨us, es, rfl⟩ := List.append_of_mem hd
      have again : Chain files (d :: es) := (show Chain files ((d :: us) ++ d :: es) from h).of_append
      have := congrArg List.length (h.eq again)
      simp at this
      omega
    · cases ds with
      | nil => exact List.nodup_nil
      | cons e ds => exact ih h.2

/-! ## What is selected -/

theorem selected_selectLayers :
    selected (selectLayers σ).log = selected σ.log ++ σ.layers.map (·, σ.recipe) := by
  simp [selectLayers, selected, List.filterMap_append, List.filterMap_map]

/-- A recipe without a base selects its own layers. -/
theorem readRecipe_of_base_none {n : ℕ} (h : (files d).base = none) (hσ : σ.baseRecipe = none) :
    readRecipe files (n + 1) d σ =
      some (selectLayers { σ with recipe := d, layers := (files d).layers }) := by
  simp [readRecipe, buildRecipe, defineRecipe, h, hσ]

/-- The variables with which a recipe file `d` reads its base `e`. -/
def saveRecipe (files : Path → RecipeFile) (d e : Path) (σ : RecipeVars) : RecipeVars :=
  { σ with
    recipe := d, layers := (files d).layers, baseRecipe := none, baseInclude := some e
    topRecipe := d, topRecipeLayers := (files d).layers }

/-- A recipe with a base selects, after the base, what the two `TOP` variables then hold. -/
theorem readRecipe_of_base {n : ℕ} {e : Path} (h : (files d).base = some e) :
    readRecipe files (n + 1) d σ =
      (readRecipe files n e (saveRecipe files d e σ)).map fun τ =>
        selectLayers { τ with recipe := τ.topRecipe, layers := τ.topRecipeLayers } := by
  simp [readRecipe, buildRecipe, defineRecipe, saveRecipe, h]

/-- The layers of the last recipe of `us`. -/
def lastListing (files : Path → RecipeFile) (us : List Path) : List (Entry × Path) :=
  (us.getLast?.map (listing files)).getD []

/-- **What a chain of includes selects**: the layers of the recipe `b` without a base, and
then, once for every recipe above it, the layers of the recipe just above `b`.
`TOP_RECIPE` is left holding that recipe; the induction is on the recipes above `b`. -/
theorem readRecipe_chain {fuel : ℕ} (σ : RecipeVars) (h : Chain files (us ++ [b])) (hσ : σ.baseRecipe = none)
    (hd : (us ++ [b]).head? = some d) (hfuel : us.length < fuel) :
    ∃ τ, readRecipe files fuel d σ = some τ ∧
      selected τ.log =
        selected σ.log ++ listing files b ++ (List.replicate us.length (lastListing files us)).flatten ∧
      τ.topRecipe = us.getLast?.getD σ.topRecipe ∧
      τ.topRecipeLayers = (us.getLast?.map fun p => (files p).layers).getD σ.topRecipeLayers := by
  induction us generalizing d σ fuel with
  | nil =>
    obtain ⟨fuel, rfl⟩ := Nat.exists_eq_succ_of_ne_zero (by omega : fuel ≠ 0)
    obtain rfl : b = d := by simpa using hd
    exact ⟨_, readRecipe_of_base_none h hσ, by simp [selected_selectLayers, listing], rfl, rfl⟩
  | cons u us ih =>
    obtain ⟨fuel, rfl⟩ := Nat.exists_eq_succ_of_ne_zero (by omega : fuel ≠ 0)
    obtain rfl : u = d := by simpa using hd
    obtain ⟨e, rest, he⟩ : ∃ e rest, us ++ [b] = e :: rest := by cases us <;> simp
    rw [List.cons_append, he] at h
    have hhead : (us ++ [b]).head? = some e := by simp [he]
    obtain ⟨τ, hτ, hlog, htop, hlayers⟩ := ih (saveRecipe files u e σ) (he ▸ h.2) rfl hhead
      (show us.length < fuel by simp at hfuel; omega)
    have hlast : (u :: us).getLast? = some (us.getLast?.getD u) := List.getLast?_cons
    have htop' : τ.topRecipe = us.getLast?.getD u := htop
    have hlayers' : τ.topRecipeLayers = (files (us.getLast?.getD u)).layers := by
      rw [hlayers]
      cases us.getLast? <;> rfl
    refine ⟨_, by rw [readRecipe_of_base h.1, hτ]; rfl, ?_, by simp [selectLayers, hlast, htop'],
      by simp [selectLayers, hlast, hlayers']⟩
    -- the copies below are of the same recipe as the one added here
    have copies : (List.replicate us.length (lastListing files us)).flatten =
        (List.replicate us.length (lastListing files (u :: us))).flatten := by
      rcases us with _ | ⟨v, us⟩
      · rfl
      · simp [lastListing, List.getLast?_cons]
    rw [selected_selectLayers, hlog, copies, htop', hlayers', List.length_cons,
      List.replicate_succ', List.flatten_append]
    simp [saveRecipe, lastListing, hlast, listing]

/-- Several copies of one recipe's layers are the layers of several recipes only if there
are none. -/
theorem copies_eq_iff (h : us.Nodup) :
    (List.replicate us.length (lastListing files us)).flatten = us.reverse.flatMap (listing files) ↔
      us.length ≤ 1 ∨ ∀ d ∈ us, (files d).layers = [] := by
  have listing_eq_nil : ∀ d, listing files d = [] ↔ (files d).layers = [] := by simp [listing]
  rcases List.eq_nil_or_concat us with rfl | ⟨us, p, rfl⟩
  · simp
  · have hlast : lastListing files (us ++ [p]) = listing files p := by simp [lastListing]
    rw [List.concat_eq_append, hlast]
    simp only [List.length_append, List.length_singleton, List.replicate_succ, List.flatten_cons,
      List.reverse_append, List.reverse_singleton, List.singleton_append, List.flatMap_cons,
      List.append_cancel_left_eq]
    constructor
    · intro heq
      rcases us with _ | ⟨u, us⟩
      · exact .inl (by simp)
      · right
        have hp : (files p).layers = [] := by
          -- a layer of `p` would also be one of another recipe
          by_contra hne
          obtain ⟨n, hn⟩ := List.exists_mem_of_ne_nil _ hne
          have hmem : (n, p) ∈ (u :: us).reverse.flatMap (listing files) := by
            rw [← heq]
            simp [List.replicate_succ, listing, hn]
          obtain ⟨d, hd, hnd⟩ := List.mem_flatMap.mp hmem
          obtain rfl : d = p := (by simpa [listing] using hnd : n ∈ (files d).layers ∧ d = p).2
          rw [List.concat_eq_append] at h
          exact (List.nodup_append.mp h).2.2 d (List.mem_reverse.mp hd) d (by simp) rfl
        rw [(listing_eq_nil p).mpr hp, List.flatten_replicate_nil] at heq
        have hnil := List.flatMap_eq_nil_iff.mp heq.symm
        intro d hd
        rcases List.mem_append.mp hd with hd | hd
        · exact (listing_eq_nil d).mp (hnil d (List.mem_reverse.mpr hd))
        · rwa [List.mem_singleton.mp hd]
    · rintro (hlen | hnil)
      · obtain rfl : us = [] := by simpa using hlen
        simp
      · rw [(listing_eq_nil p).mpr (hnil p (by simp)), List.flatten_replicate_nil]
        refine (List.flatMap_eq_nil_iff.mpr fun d hd => ?_).symm
        exact (listing_eq_nil d).mpr (hnil d (by simp [List.mem_reverse.mp hd]))

/-- **Recipes are inherited rightly up to one base**, and beyond that only if no recipe but
the last of the chain lists a layer. -/
theorem inherits_iff (files : Path → RecipeFile) (us : List Path) (b : Path)
    (h : Chain files (us ++ [b])) :
    Inherits files (us ++ [b]) ↔ us.length ≤ 1 ∨ ∀ d ∈ us, (files d).layers = [] := by
  rw [← copies_eq_iff (List.nodup_append.mp h.nodup).1]
  have expected : (us ++ [b]).reverse.flatMap (listing files) =
      listing files b ++ us.reverse.flatMap (listing files) := by simp
  constructor
  · intro hin
    obtain ⟨d, hd⟩ : ∃ d, (us ++ [b]).head? = some d := by cases us <;> simp
    obtain ⟨τ, hτ, hsel, -⟩ := readRecipe_chain {} h rfl hd (Nat.lt_succ_self us.length)
    obtain ⟨τ', hτ', hsel'⟩ := hin d hd (us.length + 1) (by simp)
    obtain rfl : τ = τ' := Option.some.inj (hτ.symm.trans hτ')
    rw [hsel, expected] at hsel'
    simpa [selected] using hsel'
  · intro heq d hd fuel hfuel
    obtain ⟨τ, hτ, hsel, -⟩ := readRecipe_chain {} h rfl hd
      (show us.length < fuel by simp at hfuel; omega)
    refine ⟨τ, hτ, ?_⟩
    rw [hsel, expected, heq]
    simp [selected]

end Chain

/-- A product on a board on a common base. -/
def productFiles : Path → RecipeFile
  | "product" => { base := some "board", layers := ["app"] }
  | "board" => { base := some "common", layers := ["kernel"] }
  | _ => { layers := ["rootfs"] }

theorem inherits_board : Inherits productFiles ["board", "common"] :=
  (inherits_iff productFiles ["board"] "common" ⟨rfl, rfl⟩).mpr (.inl (by decide))

/-- The product's own layer is never included, the kernel is included twice. -/
theorem not_inherits_product :
    Chain productFiles ["product", "board", "common"] ∧
      ¬ Inherits productFiles ["product", "board", "common"] := by
  refine ⟨⟨rfl, rfl, rfl⟩, fun h => ?_⟩
  obtain ⟨τ, hτ, hsel⟩ := h "product" rfl 3 (by simp)
  have actual : (readRecipe productFiles 3 "product" {}).map (fun τ => selected τ.log) =
      some [("rootfs", "common"), ("kernel", "board"), ("kernel", "board")] := by decide
  rw [hτ] at actual
  have := (Option.some.inj actual).symm.trans hsel
  revert this
  decide

end VeRoot
