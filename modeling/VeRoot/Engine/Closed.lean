import VeRoot.Engine.WellFormed

/-!
# Every engine node has a rule, or has not

`L_x` waits for `L_x.overlay_umount` in every configuration, and in serialised
recipes for the previous layer's one too, but the rules that make such a node stand
inside `ifeq ($(CONFIG_OVERLAYFS),y)`.  `dangling_iff` finds every engine node
that is asked for and cannot be made.

## Main definitions

* `EngineNode` — the phony nodes of the layers of a recipe.
* `NoDangling` — none of them is asked for without a rule.
* `noDangling_iff` — the main result.
* `isTarget_of_prereq` — with overlays make can make whatever it asks for.
-/

namespace VeRoot

open Make

/-- `L_x`, `L_x.preamble`, `L_x.outro`, `L_x.overlay_mount` or `L_x.overlay_umount`
of a layer `x` of the recipe. -/
def EngineNode (evs : Reading) : Node → Prop
  | .layer x | .preamble x | .outro x | .overlayMount x | .overlayUmount x => x ∈ namesOf evs
  | _ => False

/-- No engine node is asked for without a rule that makes it. -/
def NoDangling (cfg : Config) (evs : Reading) : Prop :=
  ∀ b, EngineNode evs b → ¬ Dangling (makefile cfg evs) b

section Closed

variable {cfg : Config} {evs : Reading} {f : LayerFile} {σ : Parse} {x : Name}

/-- The rules of a layer file stay in the makefile. -/
theorem layerRules_subset {pre post : Reading} :
    layerRules cfg f (readAll cfg pre) ⊆ makefile cfg (pre ++ .layer f :: post) := by
  intro r hr
  exact List.mem_append_left _ (mem_readAll_rules.mpr ⟨pre, .layer f, post, rfl, hr⟩)

/-- What the rules of the layer file `f`, built in the variables `τ`, can make. -/
inductive LayerMakes (cfg : Config) (f : LayerFile) (τ : Parse) : Node → Prop
  | target {t} (ht : t ∈ f.targets) : LayerMakes cfg f τ (.target t)
  | source {p} (hp : p ∈ f.sources) : LayerMakes cfg f τ (.source p)
  | buildDir : LayerMakes cfg f τ (.buildDir f.name)
  | layer : LayerMakes cfg f τ (.layer f.name)
  | preamble : LayerMakes cfg f τ (.preamble f.name)
  | outro : LayerMakes cfg f τ (.outro f.name)
  | invalidate : LayerMakes cfg f τ (.invalidate f.name)
  | i : LayerMakes cfg f τ (.i f.name)
  | cleanBuild : LayerMakes cfg f τ (.cleanBuild f.name)
  | clean : LayerMakes cfg f τ (.clean f.name)
  | overlayMount (ho : cfg.overlayfs = true) : LayerMakes cfg f τ (.overlayMount f.name)
  | overlayUmount (ho : cfg.overlayfs = true) : LayerMakes cfg f τ (.overlayUmount f.name)
  | chroot (ho : cfg.overlayfs = true) : LayerMakes cfg f τ (.chroot f.name)
  | layerSize (ho : cfg.overlayfs = true) : LayerMakes cfg f τ (.layerSize f.name)
  | size (ho : cfg.overlayfs = true) : LayerMakes cfg f τ .size
  | all {d} (hd : d ∈ runafterList cfg τ) (hu : τ.layerTargets d = []) : LayerMakes cfg f τ .all

theorem isTarget_declRules {ts : List Path} {ds : List Decl} {a : Node}
    (h : IsTarget (declRules ts ds) a) :
    (∃ p ∈ Decl.sources ds, a = .source p) ∨ ∃ t ∈ ts ++ Decl.targets ds, a = .target t := by
  induction ds generalizing ts with
  | nil => simp [declRules] at h
  | cons d ds ih =>
    cases d with
    | source p =>
      simp only [declRules, List.cons_append, List.nil_append, isTarget_cons, List.mem_singleton,
        List.mem_map] at h
      rcases h with rfl | ⟨t, ht, rfl⟩ | h
      · exact .inl ⟨p, by simp [Decl.sources], rfl⟩
      · exact .inr ⟨t, by simp [ht], rfl⟩
      · rcases ih h with ⟨q, hq, rfl⟩ | h
        · exact .inl ⟨q, by simp_all [Decl.sources], rfl⟩
        · exact .inr h
    | target t | depends t | runafter t =>
      simpa [Decl.sources, Decl.targets] using ih h

theorem isTarget_source {ts : List Path} {ds : List Decl} {p : Path} (h : p ∈ Decl.sources ds) :
    IsTarget (declRules ts ds) (.source p) := by
  induction ds generalizing ts with
  | nil => simp [Decl.sources] at h
  | cons d ds ih =>
    cases d with
    | source q =>
      simp only [declRules, List.cons_append, List.nil_append, isTarget_cons, List.mem_singleton]
      rcases eq_or_ne p q with rfl | ne
      · exact .inl rfl
      · exact .inr (.inr (ih (by simpa [Decl.sources, ne] using h)))
    | target t | depends t | runafter t => exact ih (by simpa [Decl.sources] using h)

theorem isTarget_checkRundeps {τ : Parse} {d : Name} {a : Node} :
    IsTarget (checkRundeps τ d) a ↔ τ.layerTargets d = [] ∧ a = .all := by
  unfold checkRundeps; split <;> simp_all [isTarget_cons]

theorem isTarget_overlayMount {ds rs : List Node} {prev : Option Name} {a : Node} :
    IsTarget (overlayMount x ds rs prev) a ↔ a = .preamble x ∨ a = .overlayMount x := by
  cases prev <;> simp [overlayMount, isTarget_cons]

theorem isTarget_serialiseLayers {prev : Option Name} {a : Node} :
    IsTarget (serialiseLayers x prev) a ↔ prev.isSome ∧ a = .layer x := by
  cases prev <;> simp [serialiseLayers, isTarget_cons]

/-- **What a layer file makes.** -/
theorem isTarget_layerRules {a : Node} :
    IsTarget (layerRules cfg f σ) a ↔ LayerMakes cfg f (enterLayer f σ) a := by
  simp only [layerRules, buildLayerRules, hookLayer, ownRules, layerCleanInvalidate,
    layerPreamble, layerOutro, overlayUmount, overlayChroot, layerSize, isTarget_append,
    isTarget_cons, isTarget_ite, not_isTarget_nil, isTarget_flatMap, isTarget_map,
    isTarget_checkRundeps, isTarget_overlayMount, isTarget_serialiseLayers,
    enterLayer_targetNodes_self, List.mem_cons, List.mem_map, List.not_mem_nil, or_false,
    and_false, false_or]
  constructor
  · have target : (∃ t ∈ f.targets, .target t = a) → LayerMakes cfg f (enterLayer f σ) a := by
      rintro ⟨t, ht, rfl⟩
      exact .target ht
    rintro (((h | h) | h) | (⟨e, he, rfl⟩ | ⟨e, he, rfl⟩) | ⟨e, he, rfl⟩)
    · rcases h with (((rfl | rfl) | rfl | rfl | rfl) | rfl) | rfl
      · exact .invalidate
      · exact .i
      · exact .cleanBuild
      · exact .clean
      · exact .clean
      · exact .preamble
      · exact .outro
    · rcases isTarget_declRules h with ⟨p, hp, rfl⟩ | ⟨t, ht, rfl⟩
      · exact .source hp
      · exact target ⟨t, by simpa [LayerFile.targets] using ht, rfl⟩
    · rcases h with (((((((h | h | rfl | rfl) | ⟨ho, h | rfl | rfl⟩) | rfl) | ⟨-, h⟩) | h) |
        ⟨-, -, rfl⟩) | ⟨d, hd, h | ⟨hu, rfl⟩⟩) | ⟨ho, (((rfl | rfl) | rfl) | rfl) | rfl | rfl⟩
      all_goals first | exact target h | exact .all hd hu | constructor <;> assumption
    · exact .target (f.own e he).1
    · exact .target (f.ownAfter e he).1
    · exact .target (f.ownInputs e he)
  · intro h
    cases h with
    | source hp => exact .inl (.inl (.inr (isTarget_source hp)))
    | _ => grind

/-- What a layer file makes, a configuration with that layer file makes. -/
theorem LayerMakes.isTarget {pre post : Reading} {a : Node}
    (h : LayerMakes cfg f (enterLayer f (readAll cfg pre)) a) :
    IsTarget (makefile cfg (pre ++ .layer f :: post)) a :=
  (isTarget_layerRules.mpr h).mono layerRules_subset

/-- **What a configuration makes**: what its layer files make, and the goals of the top-level
`Makefile`. -/
theorem isTarget_makefile {a : Node} (h : IsTarget (makefile cfg evs) a) :
    (∃ pre f post, evs = pre ++ .layer f :: post ∧
      LayerMakes cfg f (enterLayer f (readAll cfg pre)) a) ∨
    a = .all ∨ a = .recipe ∨ a = .sourceCheckout ∨ a = .rundepError := by
  -- `$(L_x)` holds targets of a layer file
  have target : ∀ {pre post : Reading} {x : Name}, evs = pre ++ post →
      a ∈ (readAll cfg pre).targetNodes x → ∃ pre f post, evs = pre ++ .layer f :: post ∧
        LayerMakes cfg f (enterLayer f (readAll cfg pre)) a := by
    intro pre post x hsplit ha
    obtain ⟨t, ht, rfl⟩ := List.mem_map.mp ha
    obtain ⟨f, hf, htf⟩ := exists_of_mem_layerTargets ht
    obtain ⟨pre', post', rfl⟩ := mem_layersOf.mp (current_mem hf).1
    exact ⟨pre', f, post' ++ post, by simp [hsplit], .target htf⟩
  rw [makefile, isTarget_append] at h
  rcases h with ⟨r, hr, ha⟩ | h
  · obtain ⟨pre, e, post, rfl, hre⟩ := mem_readAll_rules.mp hr
    cases e with
    | layer f => exact .inl ⟨pre, f, post, rfl, isTarget_layerRules.mp ⟨r, hre, ha⟩⟩
    | secondPass entries =>
      simp only [eventRules, evalLayerDepends, List.mem_flatMap, List.mem_map] at hre
      obtain ⟨n, -, dep, -, rfl⟩ := hre
      exact .inl (target rfl ha)
  · simp only [makefileRules, isTarget_append, isTarget_cons, isTarget_map, not_isTarget_nil,
      List.mem_singleton, List.mem_map, or_false] at h
    rcases h with ((rfl | rfl | ⟨x, hx, rfl⟩ | rfl) | ⟨x, -, ha⟩) | rfl
    · exact .inr (.inl rfl)
    · exact .inr (.inr (.inl rfl))
    · rw [readAll_recipe] at hx
      obtain ⟨f, hf, rfl⟩ := List.mem_map.mp hx
      obtain ⟨pre, post, rfl⟩ := mem_layersOf.mp hf
      exact .inl ⟨pre, f, post, rfl, .layer⟩
    · exact .inr (.inr (.inr (.inl rfl)))
    · exact .inl (target (List.append_nil _).symm ha)
    · exact .inr (.inr (.inr (.inr rfl)))

/-- With overlays every engine node can be made. -/
theorem EngineNode.isTarget {b : Node} (ho : cfg.overlayfs = true) (h : EngineNode evs b) :
    IsTarget (makefile cfg evs) b := by
  have makes : ∀ x ∈ namesOf evs, (∀ f σ, f.name = x → LayerMakes cfg f σ b) →
      IsTarget (makefile cfg evs) b := by
    intro x hx hb
    obtain ⟨f, hf, rfl⟩ := List.mem_map.mp hx
    obtain ⟨pre, post, rfl⟩ := mem_layersOf.mp hf
    exact (hb f _ rfl).isTarget
  cases b with
  | layer x => exact makes x h fun f σ e => e ▸ .layer
  | preamble x => exact makes x h fun f σ e => e ▸ .preamble
  | outro x => exact makes x h fun f σ e => e ▸ .outro
  | overlayMount x => exact makes x h fun f σ e => e ▸ .overlayMount ho
  | overlayUmount x => exact makes x h fun f σ e => e ▸ .overlayUmount ho
  | _ => exact h.elim

/-- The goals of the top-level `Makefile` have rules. -/
theorem isTarget_goal {a : Node}
    (h : a = .all ∨ a = .recipe ∨ a = .sourceCheckout ∨ a = .rundepError) :
    IsTarget (makefile cfg evs) a := by
  rw [makefile, isTarget_append]
  rcases h with rfl | rfl | rfl | rfl <;> simp [makefileRules, isTarget_append, isTarget_cons]

/-- So have the targets that layers register, -/
theorem isTarget_of_mem_targets {t : Path} (hf : f ∈ layersOf evs) (ht : t ∈ f.targets) :
    IsTarget (makefile cfg evs) (.target t) := by
  obtain ⟨pre, post, rfl⟩ := mem_layersOf.mp hf
  exact (LayerMakes.target ht).isTarget

/-- and the files that they fetch. -/
theorem isTarget_of_mem_sourceCheckout {p : Path} (h : p ∈ (readAll cfg evs).sourceCheckout) :
    IsTarget (makefile cfg evs) (.source p) := by
  rw [readAll_sourceCheckout] at h
  obtain ⟨f, hf, hp⟩ := List.mem_flatMap.mp h
  obtain ⟨pre, post, rfl⟩ := mem_layersOf.mp hf
  exact (LayerMakes.source hp).isTarget

/-- **With overlays every prerequisite has a rule or is a file of the source tree.** -/
theorem isTarget_of_prereq (ho : cfg.overlayfs = true) {a b : Node}
    (h : Prereq (makefile cfg evs) a b) : IsTarget (makefile cfg evs) b ∨ ∃ p, b = .file p := by
  rcases h with h | h
  · rcases normal_makefile.mp h with ⟨pre, f, post, rfl, e⟩ | ⟨pre, es, post, rfl, e⟩ | e
    · have hf : f ∈ layersOf (pre ++ .layer f :: post) := by simp [layersOf_append]
      cases e with
      | buildDir => exact .inl LayerMakes.buildDir.isTarget
      | file | input => exact .inr ⟨_, rfl⟩
      | source hds =>
        refine .inl (LayerMakes.source ?_).isTarget
        simp [LayerFile.sources, Decl.sources, hds]
      | depends ht hd hu =>
        obtain ⟨g, hg, -, hu⟩ := exists_layer_of_mem_enterLayer post hu
        exact .inl (isTarget_of_mem_targets hg hu)
      | own hown => exact .inl (isTarget_of_mem_targets hf (f.own _ hown).2)
      | hook ht => exact .inl (isTarget_of_mem_targets hf ht)
      | umount => exact .inl (LayerMakes.overlayMount ho).isTarget
    · obtain ⟨-, -, g, hg, -, -, -, -, -, -, u, hu, -, rfl⟩ := e.exists_layers
      exact .inl (isTarget_of_mem_targets (layersOf_subset _ _ hg) hu)
    · cases e with
      | all => exact .inl (isTarget_goal (by simp))
      | recipe hx =>
        rw [readAll_recipe] at hx
        exact .inl (EngineNode.isTarget ho hx)
  · rcases orderOnly_makefile.mp h with ⟨pre, f, post, rfl, e⟩ | e
    · have hf : f ∈ layersOf (pre ++ .layer f :: post) := by simp [layersOf_append]
      have previous : ∀ {y : Name}, prevLayer (enterLayer f (readAll cfg pre)).recipe = some y →
          y ∈ namesOf (pre ++ .layer f :: post) := by
        intro y hy
        rw [enterLayer_recipe, readAll_recipe] at hy
        have mem : y ∈ namesOf pre ∧ y ≠ f.name := by simpa [filterOut] using mem_of_lastword hy
        simp [namesOf_append, mem.1]
      cases e with
      | preamble => exact .inl LayerMakes.preamble.isTarget
      | mount | chroot => exact .inl (LayerMakes.overlayMount ho).isTarget
      | runafter ht hd hu | mountRefs _ ha hd hu =>
        obtain ⟨g, hg, -, hu⟩ := exists_layer_of_mem_enterLayer post hu
        exact .inl (isTarget_of_mem_targets hg hu)
      | ownAfter hown => exact .inl (isTarget_of_mem_targets hf (f.ownAfter _ hown).2)
      | outro ht | umount _ ht => exact .inl (isTarget_of_mem_targets hf ht)
      | hookUmount => exact .inl (LayerMakes.overlayUmount ho).isTarget
      | hookOutro => exact .inl LayerMakes.outro.isTarget
      | prevUmount hp hy | prevOutro hp hy | mountPrevUmount _ ha hy | mountPrevPreamble _ ha hy =>
        exact .inl (EngineNode.isTarget ho (previous hy))
      | rundeps => exact .inl (isTarget_goal (by simp))
      | size => exact .inl (LayerMakes.layerSize ho).isTarget
      | cleanInvalidate => exact .inl LayerMakes.invalidate.isTarget
      | cleanBuild => exact .inl LayerMakes.cleanBuild.isTarget
    · cases e with
      | layer hx hp | checkout hp => exact .inl (isTarget_of_mem_sourceCheckout hp)
      | target => exact .inl (isTarget_goal (by simp))

/-- Without overlays nothing makes an unmount. -/
theorem not_isTarget_overlayUmount (ho : cfg.overlayfs = false) :
    ¬ IsTarget (makefile cfg evs) (.overlayUmount x) := by
  intro h
  rcases isTarget_makefile h with ⟨pre, f, post, rfl, hm⟩ | h
  · cases hm with
    | overlayUmount ho' => simp [ho] at ho'
  · simp at h

/-- `L_x` of every layer asks for `L_x.overlay_umount`. -/
theorem overlayUmount_dangling (ho : cfg.overlayfs = false) (hf : f ∈ layersOf evs) :
    Dangling (makefile cfg evs) (.overlayUmount f.name) := by
  refine ⟨?_, not_isTarget_overlayUmount ho⟩
  obtain ⟨pre, post, rfl⟩ := mem_layersOf.mp hf
  refine ⟨⟨[.layer f.name], f.targets.map .target, [.overlayUmount f.name, .outro f.name]⟩,
    layerRules_subset ?_, .inr (by simp)⟩
  simp [layerRules, buildLayerRules, hookLayer]

/-- **No engine node dangles exactly when overlays are in use or there is no layer.** -/
theorem noDangling_iff (cfg : Config) (evs : Reading) :
    NoDangling cfg evs ↔ cfg.overlayfs = true ∨ layersOf evs = [] := by
  constructor
  · intro h
    by_contra hne
    obtain ⟨ho, hl⟩ : cfg.overlayfs = false ∧ layersOf evs ≠ [] := by simpa using hne
    obtain ⟨f, hf⟩ := List.exists_mem_of_ne_nil _ hl
    exact h (.overlayUmount f.name) (List.mem_map_of_mem hf) (overlayUmount_dangling ho hf)
  · rintro (ho | hl) b hb ⟨-, hn⟩
    · exact hn (hb.isTarget ho)
    · have : namesOf evs = [] := by simp [namesOf, hl]
      cases b <;> simp [EngineNode, this] at hb

/-- One layer without overlays already asks for an unmount nobody makes. -/
theorem not_noDangling_kernel : ¬ NoDangling ⟨false, false⟩
    [.layer { name := "kernel", file := "kernel.mk", decls := [.target "Image"] }] := by
  intro h
  exact h (.overlayUmount "kernel") (by simp [EngineNode, namesOf]) (by decide)

end Closed

end VeRoot
