import VeRoot.Engine.WellFormed

/-!
# The generated graph has no cycle

Four files and two passes contribute edges, and they connect a layer both ways:
targets wait for the mount and the preamble, the outro and the unmount wait for
the targets, and the mount waits for the previous layer's unmount.  `rank` spreads
the nodes of the layer at position `k` over the levels `4 k + 2` (mount,
preamble), `4 k + 3` (targets), `4 k + 4` (unmount, outro) and `4 k + 5` (`L_x`).
No edge rises, and the only level edges are a layer's own ones.

With parallel layers and without overlays nothing connects consecutive layers, so
inclusion order does not matter and targets may refer forwards.  There `level` puts
all targets on one level, and the layer relation itself rules cycles out.

## Main definitions

* `rank` — the level of a node when `DEPENDS` and `RUNAFTER` look backwards.
* `rank_of_prereq` — what every edge does to the rank.
* `LayerAfter` — the union of the `DEPENDS` and `RUNAFTER` relations.
* `makefile_acyclic` — the main result.
-/

namespace VeRoot

open Make

/-- An edge which a layer's own rules add between two of its targets. -/
def OwnDep (evs : Reading) (a b : Node) : Prop :=
  ∃ f ∈ layersOf evs, ∃ e ∈ f.waits, a = .target e.1 ∧ b = .target e.2

theorem OwnDep.of_mem {evs : Reading} {f : LayerFile} {t u : Path} (hf : f ∈ layersOf evs)
    (h : (t, u) ∈ f.deps ∨ (t, u) ∈ f.after) : OwnDep evs (.target t) (.target u) :=
  ⟨f, hf, (t, u), List.mem_append.mpr h, rfl, rfl⟩

/-- The level of a node. -/
def rank (evs : Reading) : Node → ℕ
  | .target t => 4 * owner evs t + 3
  | .preamble x | .overlayMount x => 4 * pos evs x + 2
  | .outro x | .overlayUmount x | .chroot x => 4 * pos evs x + 4
  | .layer x => 4 * pos evs x + 5
  | .recipe => 4 * (layersOf evs).length + 6
  | .all => 4 * (layersOf evs).length + 7
  | .sourceCheckout | .clean _ | .size => 1
  | .rundepError | .layerSize _ | .invalidate _ | .i _ | .cleanBuild _ | .buildDir _ | .file _
  | .source _ => 0

section Rank

variable {cfg : Config} {evs pre post : Reading} {f g : LayerFile} {a b : Node} {d : Name}
  {t u : Path}

/-- A layer stands after every layer it names. -/
theorem Earlier.pos_lt (hn : Distinct evs) (he : Earlier evs) (hf : f ∈ layersOf evs)
    (hd : d ∈ f.depends ∨ d ∈ f.runafter) : pos evs d < pos evs f.name := by
  obtain ⟨pre, post, rfl⟩ := mem_layersOf.mp hf
  rw [pos_split _ hn.notMem]
  exact pos_lt_of_mem _ _ (he.mem hd)

/-- The targets behind a reference to an earlier layer belong to an earlier layer. -/
theorem owner_lt_of_ref (hn : Distinct (pre ++ .layer f :: post))
    (hd : DisjointTargets (pre ++ .layer f :: post)) (hmem : d ∈ namesOf pre)
    (hu : u ∈ (enterLayer f (readAll cfg pre)).layerTargets d) :
    owner (pre ++ .layer f :: post) u < (layersOf pre).length := by
  obtain ⟨g, hg, rfl, hug⟩ := exists_earlier_of_mem_enterLayer hn.notMem hmem hu
  rw [owner_eq_pos hn hd (layersOf_subset _ _ hg) hug]
  exact pos_lt_of_mem _ _ (mem_namesOf.mpr ⟨g, hg, rfl⟩)

/-- What the edges of the layer file `f` do to the rank. -/
theorem rank_of_layerNormal (hn : Distinct (pre ++ .layer f :: post))
    (he : Earlier (pre ++ .layer f :: post)) (hd : DisjointTargets (pre ++ .layer f :: post))
    (h : LayerNormal cfg f (enterLayer f (readAll cfg pre)) a b) :
    rank (pre ++ .layer f :: post) b < rank (pre ++ .layer f :: post) a ∨
      (rank (pre ++ .layer f :: post) a = rank (pre ++ .layer f :: post) b ∧
        OwnDep (pre ++ .layer f :: post) a b) := by
  have hp := pos_split post hn.notMem
  have ho : ∀ t ∈ f.targets, owner _ t = _ := fun t ht => owner_split hd ht
  cases h with
  | buildDir ht | file ht | source ht | input ht => exact .inl (by simp [rank])
  | umount | hook ht =>
    left; simp only [rank, hp]
    first | omega | (rw [ho _ ht]; omega)
  | depends ht hdep hu =>
    have := owner_lt_of_ref hn hd (he.mem (.inl ((mem_dependsRefs hn.notMem).mp hdep))) hu
    left; simp only [rank, ho _ ht]; omega
  | own hdep =>
    have := f.own _ hdep
    exact .inr ⟨by simp only [rank]; rw [ho _ this.1, ho _ this.2],
      .of_mem (by simp [layersOf_append]) (.inl hdep)⟩

theorem rank_of_layerOrder (hn : Distinct (pre ++ .layer f :: post))
    (he : Earlier (pre ++ .layer f :: post)) (hd : DisjointTargets (pre ++ .layer f :: post))
    (h : LayerOrder cfg f (enterLayer f (readAll cfg pre)) a b) :
    rank (pre ++ .layer f :: post) b < rank (pre ++ .layer f :: post) a ∨
      (rank (pre ++ .layer f :: post) a = rank (pre ++ .layer f :: post) b ∧
        OwnDep (pre ++ .layer f :: post) a b) := by
  have hp := pos_split post hn.notMem
  have ho : ∀ t ∈ f.targets, owner _ t = _ := fun t ht => owner_split hd ht
  have hprev : ∀ y, prevLayer (enterLayer f (readAll cfg pre)).recipe = some y →
      pos (pre ++ .layer f :: post) y < (layersOf pre).length := by
    intro y hy
    exact pos_lt_of_mem _ _ (mem_of_lastword (prevLayer_enterLayer hn.notMem ▸ hy))
  cases h with
  | ownAfter hown =>
    have := f.ownAfter _ hown
    exact .inr ⟨by simp only [rank]; rw [ho _ this.1, ho _ this.2],
      .of_mem (by simp [layersOf_append]) (.inr hown)⟩
  | preamble ht | mount _ ht | outro ht | umount _ ht =>
    left; simp only [rank, hp, ho _ ht]; omega
  | @runafter t d u ht hr hu =>
    have hmem : d ∈ namesOf pre := by
      rcases (mem_runafterList hn.notMem).mp hr with hr | ⟨-, hr⟩
      · exact he.mem (.inr hr)
      · exact mem_of_lastword hr
    have := owner_lt_of_ref hn hd hmem hu
    left; simp only [rank, ho _ ht]; omega
  | hookUmount | hookOutro | chroot => left; simp only [rank]; omega
  | prevUmount _ hy | prevOutro _ hy =>
    have := hprev _ hy
    left; simp only [rank, hp]; omega
  | rundeps | size | cleanInvalidate | cleanBuild => exact .inl (by simp [rank])
  | @mountRefs a d u _ ha hr hu =>
    have hmem : d ∈ namesOf pre := by
      rcases hr with hr | hr
      · exact he.mem (.inl ((mem_dependsRefs hn.notMem).mp hr))
      · rcases ((mem_runafterRefs hn.notMem).mp hr).2 with hr | hr
        · exact he.mem (.inr hr)
        · exact mem_of_lastword hr
    have := owner_lt_of_ref hn hd hmem hu
    left; rcases ha with rfl | rfl <;> simp only [rank, hp] <;> omega
  | mountPrevUmount _ ha hy | mountPrevPreamble _ ha hy =>
    have := hprev _ hy
    left; rcases ha with rfl | rfl <;> simp only [rank, hp] <;> omega

/-- **No edge raises the rank**, and the only edges on a level are a layer's own. -/
theorem rank_of_prereq (hn : Distinct evs) (he : Earlier evs) (hd : DisjointTargets evs)
    (h : Prereq (makefile cfg evs) a b) :
    rank evs b < rank evs a ∨ (rank evs a = rank evs b ∧ OwnDep evs a b) := by
  rcases h with h | h
  · rcases normal_makefile.mp h with ⟨pre, f, post, rfl, e⟩ | ⟨pre, es, post, rfl, e⟩ | e
    · exact rank_of_layerNormal hn he hd e
    · -- both layers were included before the second pass
      obtain ⟨f, hf, g, hg, k, hk, hname, hdep, t, ht, u, hu, rfl, rfl⟩ := e.exists_layers
      have sub := layersOf_subset pre (.secondPass es :: post)
      have := Earlier.pos_lt hn he (sub hk) (.inl hdep)
      left
      simp only [rank]
      rw [owner_eq_pos hn hd (sub hf) ht, owner_eq_pos hn hd (sub hg) hu, ← hname]
      omega
    · rcases e with _ | ⟨hx⟩
      · exact .inl (by simp [rank])
      · have := pos_lt_length (readAll_recipe cfg evs ▸ hx)
        exact .inl (by simp only [rank]; omega)
  · rcases orderOnly_makefile.mp h with ⟨pre, f, post, rfl, e⟩ | e
    · exact rank_of_layerOrder hn he hd e
    · left
      cases e with
      | layer | checkout | target => simp [rank]

end Rank

/-! ## Layers in any order -/

/-- The union of the `DEPENDS` and `RUNAFTER` relations between layer names. -/
def LayerAfter (evs : Reading) (x d : Name) : Prop :=
  ∃ f ∈ layersOf evs, f.name = x ∧ (d ∈ f.depends ∨ d ∈ f.runafter)

/-- The name of the layer that registered `t`. -/
def ownerName (evs : Reading) (t : Path) : Name :=
  (((layersOf evs).find? (t ∈ ·.targets)).map LayerFile.name).getD ""

/-- The level of a node when no edge connects a layer with the one before it. -/
def level : Node → ℕ
  | .all => 6
  | .recipe => 5
  | .layer _ => 4
  | .outro _ | .overlayUmount _ | .chroot _ => 3
  | .target _ => 2
  | .sourceCheckout | .clean _ | .size => 1
  | .preamble _ | .overlayMount _ | .rundepError | .layerSize _ | .invalidate _ | .i _
  | .cleanBuild _ | .buildDir _ | .file _ | .source _ => 0

section Level

variable {cfg : Config} {evs : Reading} {f g : LayerFile} {a b : Node} {t u : Path}

theorem ownerName_eq (hd : DisjointTargets evs) (hf : f ∈ layersOf evs) (ht : t ∈ f.targets) :
    ownerName evs t = f.name := by
  unfold ownerName
  cases hfind : (layersOf evs).find? (t ∈ ·.targets) with
  | none => simpa [ht] using List.find?_eq_none.mp hfind f hf
  | some g =>
    have htg : t ∈ g.targets := by simpa using List.find?_some hfind
    obtain rfl := hd.eq (List.mem_of_find?_eq_some hfind) hf htg ht
    rfl

/-- The layer relation between the owners of two targets, or an edge of one layer. -/
def TargetEdge (evs : Reading) (a b : Node) : Prop :=
  (∃ t u, a = .target t ∧ b = .target u ∧ LayerAfter evs (ownerName evs t) (ownerName evs u)) ∨
    OwnDep evs a b

/-- A resolved reference links the owners of the two targets. -/
theorem targetEdge_of_ref (hd : DisjointTargets evs) (hf : f ∈ layersOf evs)
    (hg : g ∈ layersOf evs) (ht : t ∈ f.targets) (hu : u ∈ g.targets)
    (h : LayerAfter evs f.name g.name) : TargetEdge evs (.target t) (.target u) := by
  refine .inl ⟨t, u, rfl, rfl, ?_⟩
  rwa [ownerName_eq hd hf ht, ownerName_eq hd hg hu]

/-- **With parallel layers and no overlays no edge raises the level**, and the level
edges run between targets. -/
theorem level_of_prereq (hp : cfg.parallelLayers = true) (ho : cfg.overlayfs = false)
    (hd : DisjointTargets evs) (h : Prereq (makefile cfg evs) a b) :
    level b < level a ∨ (level a = level b ∧ TargetEdge evs a b) := by
  rcases h with h | h
  · rcases normal_makefile.mp h with ⟨pre, f, post, rfl, e⟩ | ⟨pre, es, post, rfl, e⟩ | e
    · have hf : f ∈ layersOf (pre ++ .layer f :: post) := by simp [layersOf_append]
      cases e with
      | buildDir | file | source | input | umount | hook => exact .inl (by simp [level])
      | @depends t d u ht hdep hu =>
        obtain ⟨g, hg, rfl, hug⟩ := exists_layer_of_mem_enterLayer post hu
        refine .inr ⟨rfl, targetEdge_of_ref hd hf hg ht hug ?_⟩
        rw [dependsRefs_enterLayer, readAll_dependsOf, List.mem_append, mem_dependsSoFar] at hdep
        rcases hdep with ⟨f', hf', hname, hdep⟩ | hdep
        · exact ⟨f', by simp [layersOf_append, hf'], hname, .inl hdep⟩
        · exact ⟨f, hf, rfl, .inl hdep⟩
      | own hdep => exact .inr ⟨rfl, .inr (.of_mem hf (.inl hdep))⟩
    · obtain ⟨f, hf, g, hg, k, hk, hname, hdep, t, ht, u, hu, rfl, rfl⟩ := e.exists_layers
      have sub := layersOf_subset pre (.secondPass es :: post)
      exact .inr ⟨rfl, targetEdge_of_ref hd (sub hf) (sub hg) ht hu ⟨k, sub hk, hname, .inl hdep⟩⟩
    · cases e with
      | all | recipe => exact .inl (by simp [level])
  · rcases orderOnly_makefile.mp h with ⟨pre, f, post, rfl, e⟩ | e
    · have hf : f ∈ layersOf (pre ++ .layer f :: post) := by simp [layersOf_append]
      cases e with
      | preamble | outro | hookUmount | hookOutro | rundeps | cleanInvalidate | cleanBuild =>
        exact .inl (by simp [level])
      | ownAfter hown => exact .inr ⟨rfl, .inr (.of_mem hf (.inr hown))⟩
      | mount ho' | umount ho' | mountRefs ho' | mountPrevUmount ho' | mountPrevPreamble ho'
      | chroot ho' | size ho' => simp [ho] at ho'
      | prevUmount hp' | prevOutro hp' => simp [hp] at hp'
      | @runafter t d u ht hr hu =>
        obtain ⟨g, hg, rfl, hug⟩ := exists_layer_of_mem_enterLayer post hu
        have hr' : g.name ∈ f.runafter := by simpa [runafterList, hp] using hr
        exact .inr ⟨rfl, targetEdge_of_ref hd hf hg ht hug ⟨f, hf, rfl, .inr hr'⟩⟩
    · cases e with
      | layer | checkout | target => exact .inl (by simp [level])

/-- When every layer orders its own targets acyclically, so do all of them together. -/
theorem acyclic_ownDep (hd : DisjointTargets evs)
    (hown : ∀ f ∈ layersOf evs, Acyclic fun t u => (t, u) ∈ f.waits) : Acyclic (OwnDep evs) := by
  have stay : ∀ f ∈ layersOf evs, ∀ t ∈ f.targets, ∀ b, Relation.TransGen (OwnDep evs) (.target t) b →
      ∃ u ∈ f.targets, b = .target u ∧ Relation.TransGen (fun t u => (t, u) ∈ f.waits) t u := by
    intro f hf t ht b h
    induction h with
    | single h =>
      obtain ⟨g, hg, e, he, heq, rfl⟩ := h
      obtain rfl : t = e.1 := by simpa using heq
      obtain rfl := hd.eq hf hg ht (g.own_waits e he).1
      exact ⟨e.2, (f.own_waits e he).2, rfl, .single he⟩
    | tail _ h ih =>
      obtain ⟨u, hu, rfl, path⟩ := ih
      obtain ⟨g, hg, e, he, heq, rfl⟩ := h
      obtain rfl : u = e.1 := by simpa using heq
      obtain rfl := hd.eq hf hg hu (g.own_waits e he).1
      exact ⟨e.2, (f.own_waits e he).2, rfl, path.tail he⟩
  intro a h
  obtain ⟨b, ⟨f, hf, e, he, rfl, -⟩, -⟩ := Relation.TransGen.head'_iff.mp h
  obtain ⟨u, -, hu, path⟩ := stay f hf e.1 (f.own_waits e he).1 _ h
  obtain rfl : e.1 = u := by simpa using hu
  exact hown f hf _ path

end Level

/-- No path leads on from a target that a layer's own rules wait for. -/
theorem acyclic_waits {f : LayerFile} (h : ∀ e ∈ f.waits, ∀ e' ∈ f.waits, e.2 ≠ e'.1) :
    Acyclic fun t u => (t, u) ∈ f.waits := by
  intro t path
  obtain ⟨u, e, -⟩ := Relation.TransGen.head'_iff.mp path
  obtain ⟨v, -, e'⟩ := Relation.TransGen.tail'_iff.mp path
  exact h _ e' _ e rfl

/-! ## The main result -/

/-- When `DEPENDS` and `RUNAFTER` look backwards, the rank rules cycles out. -/
theorem acyclic_of_earlier {cfg : Config} {evs : Reading} (hn : Distinct evs)
    (hd : DisjointTargets evs) (hown : ∀ f ∈ layersOf evs, Acyclic fun t u => (t, u) ∈ f.waits)
    (he : Earlier evs) : Acyclic (Prereq (makefile cfg evs)) := by
  have step : ∀ a b, Prereq (makefile cfg evs) a b → rank evs b < rank evs a ∨
      (rank evs a = rank evs b ∧ OwnDep evs a b) := fun a b h => rank_of_prereq hn he hd h
  refine acyclic_of_rank (rank evs) (fun a b h => (step a b h).imp_right And.left) ?_
  intro a h
  refine acyclic_ownDep hd hown a (Relation.TransGen.mono ?_ a a h)
  rintro a b ⟨e, hr⟩
  rcases step a b e with h | h
  · omega
  · exact h.2

/-- **The generated graph has no cycle**: in every configuration when `DEPENDS` and
`RUNAFTER` look backwards, and with parallel layers and no overlays whenever the two
relations together have no cycle, in whatever order the layers are included. -/
theorem makefile_acyclic (evs : Reading) (hn : Distinct evs) (hd : DisjointTargets evs)
    (hown : ∀ f ∈ layersOf evs, Acyclic fun t u => (t, u) ∈ f.waits) :
    (∀ cfg, Earlier evs → Acyclic (Prereq (makefile cfg evs))) ∧
    (∀ cfg : Config, cfg.parallelLayers = true → cfg.overlayfs = false →
      Acyclic (LayerAfter evs) → Acyclic (Prereq (makefile cfg evs))) := by
  have hdep := acyclic_ownDep hd hown
  constructor
  · exact fun cfg he => acyclic_of_earlier hn hd hown he
  · intro cfg hp ho hafter
    have step : ∀ a b, Prereq (makefile cfg evs) a b → level b < level a ∨
        (level a = level b ∧ TargetEdge evs a b) := fun a b h => level_of_prereq hp ho hd h
    refine acyclic_of_rank level (fun a b h => (step a b h).imp_right And.left) ?_
    -- the targets, layer by layer
    let layerName : Node → Name := fun | .target t => ownerName evs t | _ => ""
    have edge : ∀ a b, Prereq (makefile cfg evs) a b ∧ level a = level b → TargetEdge evs a b := by
      rintro a b ⟨e, hl⟩
      rcases step a b e with h | h
      · omega
      · exact h.2
    refine acyclic_of_fibres layerName (LayerAfter evs) hafter ?_ ?_
    · intro a b e
      rcases edge a b e with ⟨t, u, rfl, rfl, h⟩ | ⟨f, hf, p, hp', rfl, rfl⟩
      · exact .inl h
      · exact .inr ((ownerName_eq hd hf (f.own_waits p hp').1).trans
          (ownerName_eq hd hf (f.own_waits p hp').2).symm)
    · intro a h
      refine hdep a (Relation.TransGen.mono ?_ a a h)
      rintro a b ⟨e, hname⟩
      rcases edge a b e with ⟨t, u, rfl, rfl, h⟩ | h
      · have same : ownerName evs t = ownerName evs u := hname
        exact absurd (.single (same ▸ h)) (hafter _)
      · exact h

/-- A recipe whose root file system has two tasks and whose image waits for it. -/
def imageReading : Reading :=
  [.layer { name := "rootfs", file := "rootfs.mk", decls := [.target "unpack", .target "locale"],
            deps := [("locale", "unpack")] },
    .layer { name := "image", file := "image.mk",
             decls := [.target "disk", .depends "rootfs", .runafter "rootfs"] },
    .secondPass ["rootfs", "image"]]

/-- The same two layers with the image listed first. -/
def imageFirstReading : Reading :=
  [.layer { name := "image", file := "image.mk", decls := [.target "disk", .runafter "rootfs"] },
    .layer { name := "rootfs", file := "rootfs.mk", decls := [.target "unpack", .target "locale"],
             after := [("locale", "unpack")] },
    .secondPass ["image", "rootfs"]]

theorem makefile_acyclic_image :
    (∀ cfg, Acyclic (Prereq (makefile cfg imageReading))) ∧
      Acyclic (Prereq (makefile ⟨false, true⟩ imageFirstReading)) := by
  -- `locale` stands above `unpack`
  have own : ∀ f ∈ layersOf imageReading ++ layersOf imageFirstReading,
      Acyclic fun t u => (t, u) ∈ f.waits := by
    intro f hf
    refine acyclic_of_rank_lt (fun t => if t = "locale" then 1 else 0) fun t u h => ?_
    revert t u
    simp only [imageReading, imageFirstReading, layersOf_cons_layer, layersOf_cons_secondPass,
      layersOf_nil, List.cons_append, List.nil_append, List.mem_cons, List.not_mem_nil, or_false]
      at hf
    rcases hf with rfl | rfl | rfl | rfl <;> simp [LayerFile.waits]
  have after : Acyclic (LayerAfter imageFirstReading) := by
    refine acyclic_of_rank_lt (fun x => if x = "image" then 1 else 0) ?_
    rintro x d ⟨f, hf, rfl, h⟩
    simp only [imageFirstReading, layersOf_cons_layer, layersOf_cons_secondPass, layersOf_nil,
      List.mem_cons, List.not_mem_nil, or_false] at hf
    rcases hf with rfl | rfl <;>
      simp_all [LayerFile.depends, LayerFile.runafter, Decl.dependsOn, Decl.runsAfter]
  constructor
  · exact fun cfg => (makefile_acyclic imageReading (by decide) (by decide)
      (fun f hf => own f (by simp [hf]))).1 cfg (by decide)
  · exact (makefile_acyclic imageFirstReading (by decide) (by decide)
      (fun f hf => own f (by simp [hf]))).2 _ rfl rfl after

end VeRoot
