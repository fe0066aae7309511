import VeRoot.Engine.Variables

/-!
# The edges a layer generates

What one layer file adds to the graph, said once.  `LayerNormal` and `LayerOrder`
list the edges left and right of the `|`, and `normal_layerRules` and
`orderOnly_layerRules` prove the lists complete and exact.  Every property of the
graph is derived from them by a case split.

## Main definitions

* `LayerNormal`, `LayerOrder` — the edges of one layer file.
* `MakefileOrder` — the order-only edges of the top-level `Makefile`.
* `normal_makefile`, `orderOnly_makefile` — the edges of a whole configuration.
-/

namespace VeRoot

open Make

variable {cfg : Config} {f : LayerFile} {σ τ : Parse} {a b : Node}

theorem mem_targetNodes {x : Name} :
    b ∈ σ.targetNodes x ↔ ∃ u ∈ σ.layerTargets x, .target u = b := by
  simp [Parse.targetNodes]

theorem mem_expand {refs : List Name} :
    b ∈ σ.expand refs ↔ ∃ d ∈ refs, ∃ u ∈ σ.layerTargets d, .target u = b := by
  simp [Parse.expand, Parse.targetNodes]

/-- The normal edges of the layer file `f`, built in the variables `τ`. -/
inductive LayerNormal (cfg : Config) (f : LayerFile) (τ : Parse) : Node → Node → Prop
  | buildDir {t} (ht : t ∈ f.targets) : LayerNormal cfg f τ (.target t) (.buildDir f.name)
  | file {t} (ht : t ∈ f.targets) (hf : f.nodependFile = false) :
      LayerNormal cfg f τ (.target t) (.file f.file)
  | source {ds ds' t p} (hds : f.decls = ds ++ .source p :: ds') (ht : t ∈ Decl.targets ds) :
      LayerNormal cfg f τ (.target t) (.source p)
  | depends {t d u} (ht : t ∈ f.targets) (hd : d ∈ dependsRefs f.name τ)
      (hu : u ∈ τ.layerTargets d) : LayerNormal cfg f τ (.target t) (.target u)
  | own {t u} (h : (t, u) ∈ f.deps) : LayerNormal cfg f τ (.target t) (.target u)
  | input {t p} (h : (t, p) ∈ f.inputs) : LayerNormal cfg f τ (.target t) (.file p)
  | hook {t} (ht : t ∈ f.targets) : LayerNormal cfg f τ (.layer f.name) (.target t)
  | umount (ho : cfg.overlayfs = true) :
      LayerNormal cfg f τ (.overlayUmount f.name) (.overlayMount f.name)

/-- The order-only edges of the layer file `f`, built in the variables `τ`. -/
inductive LayerOrder (cfg : Config) (f : LayerFile) (τ : Parse) : Node → Node → Prop
  | preamble {t} (ht : t ∈ f.targets) : LayerOrder cfg f τ (.target t) (.preamble f.name)
  | mount {t} (ho : cfg.overlayfs = true) (ht : t ∈ f.targets) :
      LayerOrder cfg f τ (.target t) (.overlayMount f.name)
  | runafter {t d u} (ht : t ∈ f.targets) (hd : d ∈ runafterList cfg τ)
      (hu : u ∈ τ.layerTargets d) : LayerOrder cfg f τ (.target t) (.target u)
  | ownAfter {t u} (h : (t, u) ∈ f.after) : LayerOrder cfg f τ (.target t) (.target u)
  | outro {t} (ht : t ∈ f.targets) : LayerOrder cfg f τ (.outro f.name) (.target t)
  | umount {t} (ho : cfg.overlayfs = true) (ht : t ∈ f.targets) :
      LayerOrder cfg f τ (.overlayUmount f.name) (.target t)
  | hookUmount : LayerOrder cfg f τ (.layer f.name) (.overlayUmount f.name)
  | hookOutro : LayerOrder cfg f τ (.layer f.name) (.outro f.name)
  | prevUmount {y} (hp : cfg.parallelLayers = false) (hy : prevLayer τ.recipe = some y) :
      LayerOrder cfg f τ (.layer f.name) (.overlayUmount y)
  | prevOutro {y} (hp : cfg.parallelLayers = false) (hy : prevLayer τ.recipe = some y) :
      LayerOrder cfg f τ (.layer f.name) (.outro y)
  | rundeps {d} (hd : d ∈ runafterList cfg τ) (hu : τ.layerTargets d = []) :
      LayerOrder cfg f τ .all .rundepError
  | mountRefs {a d u} (ho : cfg.overlayfs = true)
      (ha : a = .preamble f.name ∨ a = .overlayMount f.name)
      (hd : d ∈ dependsRefs f.name τ ∨ d ∈ runafterRefs cfg f.name τ)
      (hu : u ∈ τ.layerTargets d) : LayerOrder cfg f τ a (.target u)
  | mountPrevUmount {a y} (ho : cfg.overlayfs = true)
      (ha : a = .preamble f.name ∨ a = .overlayMount f.name)
      (hy : prevLayer τ.recipe = some y) : LayerOrder cfg f τ a (.overlayUmount y)
  | mountPrevPreamble {a y} (ho : cfg.overlayfs = true)
      (ha : a = .preamble f.name ∨ a = .overlayMount f.name)
      (hy : prevLayer τ.recipe = some y) : LayerOrder cfg f τ a (.preamble y)
  | chroot (ho : cfg.overlayfs = true) :
      LayerOrder cfg f τ (.chroot f.name) (.overlayMount f.name)
  | size (ho : cfg.overlayfs = true) : LayerOrder cfg f τ .size (.layerSize f.name)
  | cleanInvalidate : LayerOrder cfg f τ (.clean f.name) (.invalidate f.name)
  | cleanBuild : LayerOrder cfg f τ (.clean f.name) (.cleanBuild f.name)

/-! ## Fragments -/

/-- A source macro reaches the targets registered before it. -/
theorem normal_declRules {ts : List Path} {ds : List Decl} :
    Normal (declRules ts ds) a b ↔ ∃ ds₁ p ds₂, ds = ds₁ ++ .source p :: ds₂ ∧
      b = .source p ∧ ∃ t ∈ ts ++ Decl.targets ds₁, a = .target t := by
  induction ds generalizing ts with
  | nil => simp [declRules]
  | cons d ds ih =>
    -- a split of `d :: ds` at a source is at `d` or is a split of `ds`
    rw [show (∃ ds₁ p ds₂, d :: ds = ds₁ ++ .source p :: ds₂ ∧ b = .source p ∧
          ∃ t ∈ ts ++ Decl.targets ds₁, a = .target t) ↔
        (∃ p, d = .source p ∧ b = .source p ∧ ∃ t ∈ ts, a = .target t) ∨
          ∃ ds₁ p ds₂, ds = ds₁ ++ .source p :: ds₂ ∧ b = .source p ∧
            ∃ t ∈ ts ++ Decl.targets (d :: ds₁), a = .target t from ?_]
    · cases d with
      | source p =>
        simp only [declRules, normal_append, normal_cons, ih, not_normal_nil]
        simp [Decl.targets]
        grind
      | target t | depends t | runafter t =>
        simp only [declRules, ih]
        simp [Decl.targets]
    · constructor
      · rintro ⟨ds₁, p, ds₂, h, hb, ht⟩
        cases ds₁ with
        | nil => exact .inl ⟨p, by simp_all, hb, by simpa [Decl.targets] using ht⟩
        | cons e ds₁ =>
          obtain ⟨rfl, rfl⟩ := by simpa using h
          exact .inr ⟨ds₁, p, ds₂, rfl, hb, ht⟩
      · rintro (⟨p, rfl, hb, ht⟩ | ⟨ds₁, p, ds₂, rfl, hb, ht⟩)
        · exact ⟨[], p, ds, rfl, hb, by simpa [Decl.targets] using ht⟩
        · exact ⟨d :: ds₁, p, ds₂, rfl, hb, ht⟩

theorem not_orderOnly_declRules {ts : List Path} {ds : List Decl} :
    ¬ OrderOnly (declRules ts ds) a b := by
  induction ds generalizing ts with
  | nil => simp [declRules]
  | cons d ds ih => cases d <;> simp [declRules, orderOnly_cons, ih]

theorem not_normal_serialiseLayers {x : Name} {prev : Option Name} :
    ¬ Normal (serialiseLayers x prev) a b := by
  cases prev <;> simp [serialiseLayers, normal_cons]

theorem orderOnly_serialiseLayers {x : Name} {prev : Option Name} :
    OrderOnly (serialiseLayers x prev) a b ↔
      ∃ y, prev = some y ∧ a = .layer x ∧ (b = .overlayUmount y ∨ b = .outro y) := by
  cases prev with
  | none => simp [serialiseLayers]
  | some y => simp [serialiseLayers, orderOnly_cons]; grind

theorem not_normal_checkRundeps {d : Name} : ¬ Normal (checkRundeps τ d) a b := by
  unfold checkRundeps; split <;> simp [normal_cons]

theorem orderOnly_checkRundeps {d : Name} :
    OrderOnly (checkRundeps τ d) a b ↔ τ.layerTargets d = [] ∧ a = .all ∧ b = .rundepError := by
  unfold checkRundeps; split <;> simp_all [orderOnly_cons]

theorem not_normal_overlayMount {x : Name} {ds rs : List Node} {prev : Option Name} :
    ¬ Normal (overlayMount x ds rs prev) a b := by
  cases prev <;> simp [overlayMount, normal_cons]

theorem orderOnly_overlayMount {x : Name} {ds rs : List Node} {prev : Option Name} :
    OrderOnly (overlayMount x ds rs prev) a b ↔ (a = .preamble x ∨ a = .overlayMount x) ∧
      ((b ∈ ds ∨ b ∈ rs) ∨ ∃ y, prev = some y ∧ (b = .overlayUmount y ∨ b = .preamble y)) := by
  cases prev with
  | none => simp [overlayMount, orderOnly_cons]
  | some y => simp [overlayMount, orderOnly_cons]; grind

/-! ## One layer file -/

/-- **The normal edges of a layer file.** -/
theorem normal_layerRules :
    Normal (layerRules cfg f σ) a b ↔ LayerNormal cfg f (enterLayer f σ) a b := by
  simp only [layerRules, buildLayerRules, hookLayer, ownRules, layerCleanInvalidate,
    layerPreamble, layerOutro, overlayUmount, overlayChroot, layerSize, normal_append, normal_cons,
    normal_ite, not_normal_nil, normal_flatMap, normal_map, mem_expand, not_normal_checkRundeps,
    not_normal_overlayMount, not_normal_serialiseLayers, normal_declRules,
    enterLayer_targetNodes_self, List.mem_singleton, List.mem_map, List.not_mem_nil, and_false,
    or_false, false_or, exists_false, Bool.not_eq_true, List.nil_append]
  constructor
  · rintro ((⟨ds, p, ds', hds, rfl, t, ht, rfl⟩ | (((⟨⟨t, ht, rfl⟩, rfl⟩ | ⟨ho, rfl, rfl⟩) |
      ⟨rfl, t, ht, rfl⟩) | ⟨hf, ⟨t, ht, rfl⟩, rfl⟩) | ⟨⟨t, ht, rfl⟩, d, hd, u, hu, rfl⟩) |
      ⟨e, he, rfl, rfl⟩ | ⟨e, he, rfl, rfl⟩)
    · exact .source hds ht
    · exact .buildDir ht
    · exact .umount ho
    · exact .hook ht
    · exact .file ht hf
    · exact .depends ht hd hu
    · exact .own he
    · exact .input he
  · intro h
    cases h <;> grind

/-- **The order-only edges of a layer file.** -/
theorem orderOnly_layerRules :
    OrderOnly (layerRules cfg f σ) a b ↔ LayerOrder cfg f (enterLayer f σ) a b := by
  simp only [layerRules, buildLayerRules, hookLayer, ownRules, layerCleanInvalidate,
    layerPreamble, layerOutro, overlayUmount, overlayChroot, layerSize, orderOnly_append,
    orderOnly_cons, orderOnly_ite, not_orderOnly_nil, orderOnly_flatMap, orderOnly_map,
    mem_expand, mem_targetNodes, orderOnly_checkRundeps, orderOnly_overlayMount,
    orderOnly_serialiseLayers, not_orderOnly_declRules, enterLayer_targetNodes_self,
    List.mem_map, List.mem_cons, List.not_mem_nil, and_false, or_false, false_or, exists_false,
    Bool.not_eq_true]
  constructor
  · rintro ((h | (((((h | h) | h) | h) | h) | h)) | ⟨e, he, rfl, rfl⟩)
    · rcases h with ⟨rfl, rfl⟩ | ⟨rfl, rfl⟩
      · exact .cleanInvalidate
      · exact .cleanBuild
    · rcases h with ⟨⟨t, ht, rfl⟩, rfl⟩ | ⟨rfl, t, ht, rfl⟩
      · exact .preamble ht
      · exact .outro ht
    · rcases h with ⟨ho, ⟨⟨t, ht, rfl⟩, rfl⟩ | ⟨rfl, t, ht, rfl⟩⟩
      · exact .mount ho ht
      · exact .umount ho ht
    · rcases h with ⟨rfl, rfl | rfl⟩
      · exact .hookUmount
      · exact .hookOutro
    · rcases h with ⟨hp, y, hy, rfl, rfl | rfl⟩
      · exact .prevUmount hp hy
      · exact .prevOutro hp hy
    · rcases h with ⟨d, hd, ⟨⟨t, ht, rfl⟩, u, hu, rfl⟩ | ⟨hu, rfl, rfl⟩⟩
      · exact .runafter ht hd hu
      · exact .rundeps hd hu
    · rcases h with ⟨ho, (⟨ha, (⟨d, hd, u, hu, rfl⟩ | ⟨d, hd, u, hu, rfl⟩) | ⟨y, hy, rfl | rfl⟩⟩ |
        ⟨rfl, rfl⟩) | ⟨rfl, rfl⟩⟩
      · exact .mountRefs ho ha (.inl hd) hu
      · exact .mountRefs ho ha (.inr hd) hu
      · exact .mountPrevUmount ho ha hy
      · exact .mountPrevPreamble ho ha hy
      · exact .chroot ho
      · exact .size ho
    · exact .ownAfter he
  · intro h
    cases h <;> grind

/-! ## The second pass and the top-level Makefile -/

/-- The edges of one second pass over `entries`. -/
inductive SecondPassNormal (entries : List Name) (σ : Parse) : Node → Node → Prop
  | depends {n t d u} (hn : n ∈ entries) (ht : t ∈ σ.layerTargets n) (hd : d ∈ σ.dependsOf n)
      (hu : u ∈ σ.layerTargets d) : SecondPassNormal entries σ (.target t) (.target u)

/-- The normal edges of the top-level `Makefile`. -/
inductive MakefileNormal (σ : Parse) : Node → Node → Prop
  | all : MakefileNormal σ .all .recipe
  | recipe {x} (hx : x ∈ σ.recipe) : MakefileNormal σ .recipe (.layer x)

/-- The order-only edges of the top-level `Makefile`. -/
inductive MakefileOrder (σ : Parse) : Node → Node → Prop
  | layer {x p} (hx : x ∈ σ.recipe) (hp : p ∈ σ.sourceCheckout) :
      MakefileOrder σ (.layer x) (.source p)
  | checkout {p} (hp : p ∈ σ.sourceCheckout) : MakefileOrder σ .sourceCheckout (.source p)
  | target {x t} (hx : x ∈ σ.recipe) (ht : t ∈ σ.layerTargets x) :
      MakefileOrder σ (.target t) .sourceCheckout

theorem normal_secondPass {entries : List Name} :
    Normal (entries.flatMap (evalLayerDepends σ)) a b ↔ SecondPassNormal entries σ a b := by
  simp only [normal_flatMap, evalLayerDepends, normal_map, mem_expand, mem_targetNodes,
    List.mem_singleton]
  constructor
  · rintro ⟨n, hn, -, ⟨d, hd, u, hu, rfl⟩, ⟨t, ht, rfl⟩, rfl⟩
    exact .depends hn ht hd hu
  · rintro ⟨hn, ht, hd, hu⟩
    exact ⟨_, hn, _, ⟨_, hd, _, hu, rfl⟩, ⟨_, ht, rfl⟩, rfl⟩

/-- An edge of a second pass follows the `DEPENDS` of a layer, as far as layers are read. -/
theorem SecondPassNormal.exists_layers {entries : List Name} {pre : Reading}
    (h : SecondPassNormal entries (readAll cfg pre) a b) :
    ∃ f ∈ layersOf pre, ∃ g ∈ layersOf pre, ∃ k ∈ layersOf pre, k.name = f.name ∧
      g.name ∈ k.depends ∧ ∃ t ∈ f.targets, ∃ u ∈ g.targets, a = .target t ∧ b = .target u := by
  obtain ⟨-, ht, hd, hu⟩ := h
  obtain ⟨f, hf, htf⟩ := exists_of_mem_layerTargets ht
  obtain ⟨g, hg, hug⟩ := exists_of_mem_layerTargets hu
  obtain ⟨k, hk, hname, hdep⟩ := mem_dependsSoFar.mp (readAll_dependsOf cfg pre _ ▸ hd)
  obtain ⟨hfm, rfl⟩ := current_mem hf
  obtain ⟨hgm, rfl⟩ := current_mem hg
  exact ⟨f, hfm, g, hgm, k, hk, hname, hdep, _, htf, _, hug, rfl, rfl⟩

theorem not_orderOnly_secondPass {entries : List Name} :
    ¬ OrderOnly (entries.flatMap (evalLayerDepends σ)) a b := by
  simp [orderOnly_flatMap, evalLayerDepends, orderOnly_map]

theorem normal_makefileRules : Normal (makefileRules σ) a b ↔ MakefileNormal σ a b := by
  simp only [makefileRules, normal_append, normal_cons, normal_map, not_normal_nil,
    List.mem_singleton, List.mem_map, List.not_mem_nil, and_false, or_false, exists_false]
  constructor
  · rintro (⟨rfl, rfl⟩ | ⟨rfl, x, hx, rfl⟩)
    · exact .all
    · exact .recipe hx
  · rintro (_ | ⟨hx⟩)
    · exact .inl ⟨rfl, rfl⟩
    · exact .inr ⟨rfl, _, hx, rfl⟩

theorem orderOnly_makefileRules : OrderOnly (makefileRules σ) a b ↔ MakefileOrder σ a b := by
  simp only [makefileRules, orderOnly_append, orderOnly_cons, orderOnly_map, not_orderOnly_nil,
    List.mem_singleton, List.mem_map, List.not_mem_nil, and_false, or_false, false_or,
    mem_targetNodes]
  constructor
  · rintro ((⟨⟨x, hx, rfl⟩, p, hp, rfl⟩ | ⟨rfl, p, hp, rfl⟩) | ⟨x, hx, ⟨t, ht, rfl⟩, rfl⟩)
    · exact .layer hx hp
    · exact .checkout hp
    · exact .target hx ht
  · rintro (⟨hx, hp⟩ | ⟨hp⟩ | ⟨hx, ht⟩)
    · exact .inl (.inl ⟨⟨_, hx, rfl⟩, _, hp, rfl⟩)
    · exact .inl (.inr ⟨rfl, _, hp, rfl⟩)
    · exact .inr ⟨_, hx, ⟨_, ht, rfl⟩, rfl⟩

/-! ## A whole configuration -/

variable {evs : Reading}

/-- **Every normal edge of a configuration** is an edge of one of its layer files, of a
second pass or of the top-level `Makefile`. -/
theorem normal_makefile :
    Normal (makefile cfg evs) a b ↔
      (∃ pre f post, evs = pre ++ .layer f :: post ∧
        LayerNormal cfg f (enterLayer f (readAll cfg pre)) a b) ∨
      (∃ pre es post, evs = pre ++ .secondPass es :: post ∧
        SecondPassNormal es (readAll cfg pre) a b) ∨
      MakefileNormal (readAll cfg evs) a b := by
  rw [makefile, normal_append, normal_makefileRules, ← or_assoc]
  refine or_congr_left ?_
  constructor
  · rintro ⟨r, hr, hab⟩
    obtain ⟨pre, e, post, rfl, hre⟩ := mem_readAll_rules.mp hr
    cases e with
    | layer f => exact .inl ⟨pre, f, post, rfl, normal_layerRules.mp ⟨r, hre, hab⟩⟩
    | secondPass es => exact .inr ⟨pre, es, post, rfl, normal_secondPass.mp ⟨r, hre, hab⟩⟩
  · rintro (⟨pre, f, post, rfl, h⟩ | ⟨pre, es, post, rfl, h⟩)
    · obtain ⟨r, hr, hab⟩ := normal_layerRules.mpr h
      exact ⟨r, mem_readAll_rules.mpr ⟨pre, .layer f, post, rfl, hr⟩, hab⟩
    · obtain ⟨r, hr, hab⟩ := normal_secondPass.mpr h
      exact ⟨r, mem_readAll_rules.mpr ⟨pre, .secondPass es, post, rfl, hr⟩, hab⟩

/-- **Every order-only edge of a configuration** is an edge of one of its layer files or
of the top-level `Makefile`. -/
theorem orderOnly_makefile :
    OrderOnly (makefile cfg evs) a b ↔
      (∃ pre f post, evs = pre ++ .layer f :: post ∧
        LayerOrder cfg f (enterLayer f (readAll cfg pre)) a b) ∨
      MakefileOrder (readAll cfg evs) a b := by
  rw [makefile, orderOnly_append, orderOnly_makefileRules]
  refine or_congr_left ?_
  constructor
  · rintro ⟨r, hr, hab⟩
    obtain ⟨pre, e, post, rfl, hre⟩ := mem_readAll_rules.mp hr
    cases e with
    | layer f => exact ⟨pre, f, post, rfl, orderOnly_layerRules.mp ⟨r, hre, hab⟩⟩
    | secondPass es => exact absurd ⟨r, hre, hab⟩ not_orderOnly_secondPass
  · rintro ⟨pre, f, post, rfl, h⟩
    obtain ⟨r, hr, hab⟩ := orderOnly_layerRules.mpr h
    exact ⟨r, mem_readAll_rules.mpr ⟨pre, .layer f, post, rfl, hr⟩, hab⟩

end VeRoot
