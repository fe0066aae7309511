import VeRoot.Engine.WellFormed

/-!
# What DEPENDS and RUNAFTER make of a target

`DEPENDS` is resolved at two kinds of moments: when `BUILD_LAYER` of the layer itself
is read, and when a recipe file ends whose `LAYERS` has an entry that spells the
layer's name.  A moment sees the targets that are registered by then.  A reference
which no moment sees resolved leaves no edge.

Nothing else becomes a normal prerequisite of a target, except files of its own.

## Main definitions

* `Resolved` — some moment resolves a reference from one target to another.
* `DependsForced` — every target depends on every target its layer asks for.
* `dependsForced_iff` — the first main result, by moments of the parse.
* `dependsForced_iff_of_disjoint` — the same by layers: who is included when, and how it is listed.
* `DependsOn` — the relation between layer names that `DEPENDS` states.
* `dependsOn_of_path` — the second one.
-/

namespace VeRoot

open Make

/-- The targets of the layer file that defined `y` last. -/
def targetsOf (evs : Reading) (y : Name) : List Path :=
  ((current evs y).map LayerFile.targets).getD []

/-- When `pre` has been read, `DEPENDS_L_n` is expanded into prerequisites of `$(L_n)`:
`pre` ends with the layer file of `n`, or a recipe file ends whose `LAYERS` lists `n`. -/
inductive Moment : Reading → Reading → Name → Prop
  | buildLayer (pre f post) : Moment (pre ++ .layer f :: post) (pre ++ [.layer f]) f.name
  | secondPass (pre es post) {n} (hn : n ∈ es) : Moment (pre ++ .secondPass es :: post) pre n

/-- Some moment sees `t` as a target of a layer and `u` as a target of a layer which
its `DEPENDS` names by then, or a layer makes `t` depend on its own target `u`. -/
def Resolved (evs : Reading) (t u : Path) : Prop :=
  (∃ pre n, Moment evs pre n ∧ t ∈ targetsOf pre n ∧
    ∃ d ∈ dependsSoFar pre n, u ∈ targetsOf pre d) ∨
  ∃ f ∈ layersOf evs, (t, u) ∈ f.deps

/-- Every target of a layer has every target of every layer it names in `DEPENDS` as
a normal prerequisite. -/
def DependsForced (cfg : Config) (evs : Reading) : Prop :=
  ∀ f ∈ layersOf evs, ∀ g ∈ layersOf evs, g.name ∈ f.depends → ∀ t ∈ f.targets, ∀ u ∈ g.targets,
    Normal (makefile cfg evs) (.target t) (.target u)

section Depends

variable {cfg : Config} {evs pre post : Reading} {f g : LayerFile} {t u : Path} {b : Node} {d : Name}

theorem enterLayer_layerTargets_concat (cfg : Config) :
    (enterLayer f (readAll cfg pre)).layerTargets = targetsOf (pre ++ [.layer f]) := by
  funext y
  rw [targetsOf, ← readAll_layerTargets cfg, readAll_concat]
  simp [read]

theorem dependsRefs_concat (cfg : Config) :
    dependsRefs f.name (enterLayer f (readAll cfg pre)) = dependsSoFar (pre ++ [.layer f]) f.name := by
  rw [dependsRefs_enterLayer, readAll_dependsOf]
  simp [dependsSoFar, layersOf_append]

theorem targetsOf_concat_self : targetsOf (pre ++ [.layer f]) f.name = f.targets := by
  simp [targetsOf, current_concat_layer]

/-- A target of `$(L_y)` is a target of a layer file that defined `y`. -/
theorem exists_of_mem_targetsOf {y : Name} (h : t ∈ targetsOf evs y) :
    ∃ f ∈ layersOf evs, f.name = y ∧ t ∈ f.targets := by
  rw [targetsOf, ← readAll_layerTargets ⟨false, false⟩] at h
  obtain ⟨f, hf, ht⟩ := exists_of_mem_layerTargets h
  exact ⟨f, (current_mem hf).1, (current_mem hf).2, ht⟩

/-- **The normal edges between targets** are the resolved references. -/
theorem normal_target_iff :
    Normal (makefile cfg evs) (.target t) (.target u) ↔ Resolved evs t u := by
  rw [normal_makefile]
  constructor
  · rintro (⟨pre, f, post, rfl, e⟩ | ⟨pre, es, post, rfl, e⟩ | e)
    · cases e with
      | depends ht hd hu =>
        rw [dependsRefs_concat] at hd
        rw [enterLayer_layerTargets_concat] at hu
        exact .inl ⟨_, _, .buildLayer pre f post, by rwa [targetsOf_concat_self], _, hd, hu⟩
      | own h => exact .inr ⟨f, by simp [layersOf_append], h⟩
    · obtain ⟨hn, ht, hd, hu⟩ := e
      rw [readAll_layerTargets] at ht hu
      rw [readAll_dependsOf] at hd
      exact .inl ⟨_, _, .secondPass pre es post hn, ht, _, hd, hu⟩
    · cases e
  · rintro (⟨pre, n, hm, ht, d, hd, hu⟩ | ⟨f, hf, h⟩)
    · cases hm with
      | buildLayer pre f post =>
        rw [targetsOf_concat_self] at ht
        rw [← dependsRefs_concat cfg] at hd
        rw [← enterLayer_layerTargets_concat cfg] at hu
        exact .inl ⟨pre, f, post, rfl, .depends ht hd hu⟩
      | secondPass _ es post hn =>
        rw [targetsOf, ← readAll_layerTargets cfg] at ht hu
        rw [← readAll_dependsOf cfg] at hd
        exact .inr (.inl ⟨pre, es, post, rfl, .depends hn ht hd hu⟩)
    · obtain ⟨pre, post, rfl⟩ := mem_layersOf.mp hf
      exact .inl ⟨pre, f, post, rfl, .own h⟩

/-- **`DEPENDS` forces a rebuild exactly when every reference is resolved at some moment.** -/
theorem dependsForced_iff (cfg : Config) (evs : Reading) :
    DependsForced cfg evs ↔
      ∀ f ∈ layersOf evs, ∀ g ∈ layersOf evs, g.name ∈ f.depends →
        ∀ t ∈ f.targets, ∀ u ∈ g.targets, Resolved evs t u := by
  simp only [DependsForced, normal_target_iff]

/-- **In a recipe with distinct names and disjoint targets the condition is about layers**:
`B` is included before `A`, or a recipe file whose `LAYERS` spells the name of `A` ends
after both. -/
theorem dependsForced_iff_of_disjoint (hn : Distinct evs) (hd : DisjointTargets evs) :
    DependsForced cfg evs ↔
      ∀ f ∈ layersOf evs, ∀ g ∈ layersOf evs, g.name ∈ f.depends → f.targets ≠ [] → g.targets ≠ [] →
        (∃ pre post, evs = pre ++ .layer f :: post ∧ (g = f ∨ g ∈ layersOf pre)) ∨
        ∃ pre es post, evs = pre ++ .secondPass es :: post ∧ f.name ∈ es ∧
          f ∈ layersOf pre ∧ g ∈ layersOf pre := by
  simp only [DependsForced, normal_target_iff]
  have sub : ∀ {pre es k}, evs = pre ++ es → k ∈ layersOf pre → k ∈ layersOf evs := by
    rintro pre es k rfl hk
    simp [layersOf_append, hk]
  have mem : ∀ {pre es k x}, evs = pre ++ es → k ∈ layersOf pre → x ∈ k.targets →
      x ∈ targetsOf pre k.name := by
    rintro pre es k x rfl hk hx
    rwa [targetsOf, hn.of_append.current hk]
  constructor
  · intro h f hf g hg hdep hft hgt
    obtain ⟨t, ht⟩ := List.exists_mem_of_ne_nil _ hft
    obtain ⟨u, hu⟩ := List.exists_mem_of_ne_nil _ hgt
    rcases h f hf g hg hdep t ht u hu with ⟨pre, n, hm, htn, d, -, hud⟩ | ⟨k, hk, hown⟩
    · obtain ⟨f', hf', hfn, htf⟩ := exists_of_mem_targetsOf htn
      obtain ⟨g', hg', -, hug⟩ := exists_of_mem_targetsOf hud
      cases hm with
      | buildLayer pre k post =>
        have split : pre ++ .layer k :: post = (pre ++ [.layer k]) ++ post := by simp
        obtain rfl := hd.eq hf (sub split hf') ht htf
        obtain rfl := hd.eq hg (sub split hg') hu hug
        obtain rfl := hn.eq hf (sub split (by simp [layersOf_append])) hfn
        exact .inl ⟨pre, post, rfl, by simpa [layersOf_append, or_comm] using hg'⟩
      | secondPass _ es post hes =>
        obtain rfl := hd.eq hf (sub rfl hf') ht htf
        obtain rfl := hd.eq hg (sub rfl hg') hu hug
        exact .inr ⟨pre, es, post, rfl, hfn ▸ hes, hf', hg'⟩
    · obtain rfl := hd.eq hf hk ht (k.own _ hown).1
      obtain rfl := hd.eq hf hg (f.own _ hown).2 hu
      obtain ⟨pre, post, hsplit⟩ := mem_layersOf.mp hf
      exact .inl ⟨pre, post, hsplit, .inl rfl⟩
  · intro h f hf g hg hdep t ht u hu
    rcases h f hf g hg hdep (List.ne_nil_of_mem ht) (List.ne_nil_of_mem hu) with
      ⟨pre, post, rfl, hgp⟩ | ⟨pre, es, post, rfl, hes, hfp, hgp⟩
    · have hgp' : g ∈ layersOf (pre ++ [.layer f]) := by simpa [layersOf_append, or_comm] using hgp
      refine .inl ⟨_, _, .buildLayer pre f post, by rwa [targetsOf_concat_self], g.name, ?_,
        mem (List.append_cons _ _ _) hgp' hu⟩
      exact mem_dependsSoFar.mpr ⟨f, by simp [layersOf_append], rfl, hdep⟩
    · exact .inl ⟨_, _, .secondPass pre es post hes, mem rfl hfp ht, g.name,
        mem_dependsSoFar.mpr ⟨f, hfp, rfl, hdep⟩, mem rfl hgp hu⟩

/-- A kernel that needs the boot loader's targets and is listed by path before it. -/
def kernelReading : Reading :=
  [.layer { name := "kernel", file := "kernel/linux.mk", decls := [.target "Image", .depends "bootloader"] },
    .layer { name := "bootloader", file := "bootloader/u-boot.mk", decls := [.target "u-boot.bin"] },
    .secondPass ["kernel/linux", "bootloader/u-boot"]]

/-- No moment resolves the kernel's reference, and the edge is missing. -/
theorem not_dependsForced_kernel : ¬ DependsForced ⟨true, false⟩ kernelReading := by
  intro h
  have edge := h _ (.head _) _ (.tail _ (.head _)) (by decide) "Image" (by decide) "u-boot.bin" (by decide)
  revert edge
  decide

end Depends

/-! ## Rebuilds come from DEPENDS alone -/

/-- The layer `x` names the layer `d` in its `DEPENDS`. -/
def DependsOn (evs : Reading) (x d : Name) : Prop :=
  ∃ f ∈ layersOf evs, f.name = x ∧ d ∈ f.depends

/-- Layers of different names share no target. -/
def DisjointNames (evs : Reading) : Prop :=
  ∀ f ∈ layersOf evs, ∀ g ∈ layersOf evs, ∀ t ∈ f.targets, t ∈ g.targets → f.name = g.name

instance (evs : Reading) : Decidable (DisjointNames evs) :=
  inferInstanceAs (Decidable (∀ f ∈ layersOf evs, _))

section Rebuild

variable {cfg : Config} {evs pre : Reading} {t u : Path} {b : Node} {n : Name}

theorem Moment.exists_append (h : Moment evs pre n) : ∃ post, evs = pre ++ post := by
  cases h with
  | buildLayer pre f post => exact ⟨post, List.append_cons _ _ _⟩
  | secondPass _ es post => exact ⟨_, rfl⟩

/-- A resolved reference stays in a layer or follows `DEPENDS`. -/
theorem Resolved.exists_layers (h : Resolved evs t u) :
    ∃ f ∈ layersOf evs, ∃ g ∈ layersOf evs, t ∈ f.targets ∧ u ∈ g.targets ∧
      (f.name = g.name ∨ DependsOn evs f.name g.name) := by
  rcases h with ⟨pre, n, hm, ht, d, hd, hu⟩ | ⟨f, hf, h⟩
  · obtain ⟨post, rfl⟩ := hm.exists_append
    have sub := layersOf_subset pre post
    obtain ⟨f, hf, rfl, htf⟩ := exists_of_mem_targetsOf ht
    obtain ⟨g, hg, rfl, hug⟩ := exists_of_mem_targetsOf hu
    obtain ⟨k, hk, hkn, hdep⟩ := mem_dependsSoFar.mp hd
    exact ⟨f, sub hf, g, sub hg, htf, hug, .inr ⟨k, sub hk, hkn, hdep⟩⟩
  · exact ⟨f, hf, f, hf, (f.own _ h).1, (f.own _ h).2, .inl rfl⟩

/-- A normal prerequisite of a target is another target or has none of its own. -/
theorem normal_of_target (h : Normal (makefile cfg evs) (.target t) b) :
    (∃ u, b = .target u) ∨ ∀ c, ¬ Normal (makefile cfg evs) b c := by
  have leaf : ∀ b : Node, (∃ x, b = .buildDir x) ∨ (∃ p, b = .file p) ∨ (∃ p, b = .source p) →
      ∀ c, ¬ Normal (makefile cfg evs) b c := by
    rintro b (⟨x, rfl⟩ | ⟨p, rfl⟩ | ⟨p, rfl⟩) c h <;>
      rcases normal_makefile.mp h with ⟨pre, f, post, rfl, e⟩ | ⟨pre, es, post, rfl, e⟩ | e <;>
      cases e
  rcases normal_makefile.mp h with ⟨pre, f, post, rfl, e⟩ | ⟨pre, es, post, rfl, e⟩ | e
  · cases e with
    | buildDir => exact .inr (leaf _ (.inl ⟨_, rfl⟩))
    | file | input => exact .inr (leaf _ (.inr (.inl ⟨_, rfl⟩)))
    | source => exact .inr (leaf _ (.inr (.inr ⟨_, rfl⟩)))
    | depends | own => exact .inl ⟨_, rfl⟩
  · obtain ⟨⟩ := e
    exact .inl ⟨_, rfl⟩
  · cases e

/-- **Only `DEPENDS` leads from layer to layer**: a path of normal prerequisites between
targets of different layers follows `DEPENDS`. -/
theorem dependsOn_of_path {f g : LayerFile} (hd : DisjointNames evs) (hf : f ∈ layersOf evs)
    (hg : g ∈ layersOf evs) (hne : f.name ≠ g.name) (ht : t ∈ f.targets) (hu : u ∈ g.targets)
    (h : Relation.TransGen (Normal (makefile cfg evs)) (.target t) (.target u)) :
    Relation.TransGen (DependsOn evs) f.name g.name := by
  -- the induction is on the path, from its head; only the first edge can leave `f`
  suffices ∀ a, Relation.TransGen (Normal (makefile cfg evs)) a (.target u) →
      ∀ t f, a = .target t → f ∈ layersOf evs → t ∈ f.targets →
        f.name = g.name ∨ Relation.TransGen (DependsOn evs) f.name g.name from
    (this _ h t f rfl hf ht).resolve_left hne
  intro a h
  have edge : ∀ {t u f}, Normal (makefile cfg evs) (.target t) (.target u) → f ∈ layersOf evs →
      t ∈ f.targets → ∃ k ∈ layersOf evs, u ∈ k.targets ∧
        (f.name = k.name ∨ DependsOn evs f.name k.name) := by
    intro t u f e hf ht
    obtain ⟨f', hf', k, hk, htf, huk, link⟩ := (normal_target_iff.mp e).exists_layers
    exact ⟨k, hk, huk, hd f hf f' hf' t ht htf ▸ link⟩
  induction h using Relation.TransGen.head_induction_on with
  | single e =>
    rintro t f rfl hf ht
    obtain ⟨k, hk, huk, link⟩ := edge e hf ht
    rw [hd k hk g hg u huk hu] at link
    exact link.imp_right .single
  | @head a c e rest ih =>
    rintro t f rfl hf ht
    rcases normal_of_target e with ⟨v, rfl⟩ | leaf
    · obtain ⟨k, hk, hvk, link⟩ := edge e hf ht
      rcases link, ih v k rfl hk hvk with ⟨link | link, tail | tail⟩
      · exact .inl (link.trans tail)
      · exact .inr (link ▸ tail)
      · exact .inr (.single (tail ▸ link))
      · exact .inr (.head link tail)
    · obtain ⟨d, e', -⟩ := Relation.TransGen.head'_iff.mp rest
      exact absurd e' (leaf d)

end Rebuild

end VeRoot
